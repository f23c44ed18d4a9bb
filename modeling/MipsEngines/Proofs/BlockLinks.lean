import MipsEngines.Proofs.BlockCache

/-!
# `MipsEngines.Proofs.BlockLinks`: links lead where the branch goes

`AtControl` says what holds at each place of the block engine: in the outer loop, that
the previous block ended where the program counter is; in the unrolled loop, how far the
block has been run and that its last branch is settled once its control transfers
are over. `blockedStep_inv` is the step lemma, `blockedInv_of_reaches` the run lemma.

`blockCache_sound` draws the consequences for every reachable state: one block an
address, indirect blocks without links, and links that lead to the block at the address
where their own block ends, which is the block `HASH_FIND` would give.
-/

set_option autoImplicit false

namespace MipsEngines

open Lib StepMachine

variable {host : Host}

/-! ### One op of a block -/

/-- No handler writes the program counter. -/
theorem execute_pc {i : Instr} {cir : U32} {s t : Machine} (h : execute host i cir s = .ok t) :
    t.reg MIPS_R_PC = s.reg MIPS_R_PC := by
  cases hi : i.isControl with
  | false => exact congrArg Pipe.pc (execute_pipe hi h)
  | true =>
      rw [execute_control host hi] at h
      cases h
      rfl

/-- `NNPC` and `branched` agree on where the block ends. -/
def Settled (b : Block) (s : Machine) : Prop :=
  b.indirect = false → s.reg MIPS_R_NNPC = exitPc b s.mips.branched

/-- The machine before op `k` of a block. -/
structure InBlock (b : Block) (code : Code) (k : Nat) (s : Machine) : Prop where
  decoded : b.Decoded code
  pc : s.reg MIPS_R_PC = branchAddress b
  le : k ≤ code.length
  settled : code.length ≤ k + 1 → Settled b s

/-- A direct control transfer at the branch address settles its block. -/
theorem settled_of_control {b : Block} {body : Code} {w d : U32 × Instr} {s t : Machine}
    (hb : b.Decoded (body ++ [w, d])) (hpc : s.reg MIPS_R_PC = branchAddress b)
    (hw : w.2.isControl = true) (h : execute host w.2 w.1 s = .ok t) : Settled b t := by
  intro hind
  have hdirect : w.2.isIndirect = false := by
    have hany := hb.indirect.symm.trans hind
    simp [hasIndirect] at hany
    exact hany.2.1
  rw [execute_control host hw] at h
  cases h
  show target w.2 w.1 s = exitPc b (isTaken w.2 w.1 s)
  rw [hb.exitPc_eq, ← hpc, target, hdirect, if_neg (by decide)]

theorem InBlock.step {b : Block} {code : Code} {k : Nat} {s t : Machine} {w : U32 × Instr}
    (h : InBlock b code k s) (hw : code[k]? = some w) (hstep : execute host w.2 w.1 s = .ok t) :
    InBlock b code (k + 1) t := by
  have hk : k < code.length := (List.getElem?_eq_some_iff.mp hw).1
  refine ⟨h.decoded, (execute_pc hstep).trans h.pc, hk, fun hlast => ?_⟩
  obtain ⟨body, c, d, rfl, hc, hd⟩ := h.decoded.chain.ends
  have hlen : (body ++ [c, d]).length = body.length + 2 := by simp
  -- Only the last two ops are left: the control transfer, or what is in its delay slot.
  rcases Nat.lt_or_ge body.length k with hlt | hge
  · have hkd : k = body.length + 1 := by omega
    subst hkd
    have hwd : d = w := by simpa using hw
    subst hwd
    have hpipe := execute_pipe hd hstep
    intro hind
    have hset := h.settled (by omega) hind
    rw [show t.reg MIPS_R_NNPC = s.reg MIPS_R_NNPC from congrArg Pipe.nnpc hpipe,
      show t.mips.branched = s.mips.branched from congrArg Pipe.branched hpipe]
    exact hset
  · have hkc : k = body.length := by omega
    subst hkc
    have hwc : c = w := by simpa using hw
    subst hwc
    exact settled_of_control h.decoded h.pc hc hstep

/-- A block is entered: its branch is not settled yet, since it has two ops or more. -/
theorem inBlock_preIncrement {b : Block} {code : Code} {s : Machine} (hb : b.Decoded code)
    (hpc : b.address = s.reg MIPS_R_PC) : InBlock b code 0 (preIncrement b s) := by
  refine ⟨hb, ?_, Nat.zero_le _, fun hlast => ?_⟩
  · show s.reg MIPS_R_PC + 4 * (b.size - 3) = branchAddress b
    rw [← hpc]
    rfl
  · have hlen := hb.length_pos
    omega

/-! ### The invariant -/

/-- Before op `k` of `n`, at a case label: the labels left up to the next test are no more
than the ops left, and the same number modulo eight. -/
structure CaseOk (n k case : Nat) : Prop where
  one_le : 1 ≤ case
  le_eight : case ≤ 8
  mod_eq : (k + case) % 8 = n % 8

/-- What holds at a place of the engine. -/
def AtControl (blocks : List Block) (previous : Option Nat) (s : Machine) :
    BlockedControl → Prop
  | .outer => ∀ p, previous = some p → ∃ b, blocks[p]? = some b ∧
      (b.indirect = false → s.reg MIPS_R_PC = exitPc b s.mips.branched)
  | .inner current => ∃ b, blocks[current]? = some b ∧ b.address = s.reg MIPS_R_PC
  | .unrolled current k case => ∃ b code, blocks[current]? = some b ∧ InBlock b code k s ∧
      k < code.length ∧ CaseOk code.length k case
  | .test current k => ∃ b code, blocks[current]? = some b ∧ InBlock b code k s ∧
      k % 8 = code.length % 8
  | .leave current => ∃ b, blocks[current]? = some b ∧ Settled b s
  | .returned => True

/-- The invariant of the block engine. -/
structure BlockedInv (e : BlockedState) : Prop where
  cache : CacheInv e.blocks
  control : AtControl e.blocks e.previous e.machine e.control

theorem blockedInv_start (s : Machine) : BlockedInv (.start s) where
  cache := .nil
  control := by intro p h; cases h

section StepInvariant

variable {blocks : List Block} {previous : Option Nat} {s : Machine} {f : BlockedState}

/-- The outer loop: the block found or decoded is at the program counter, which is where
the previous block ended, so the link patched in is right. -/
theorem outer_inv (h : BlockedInv ⟨.outer, blocks, previous, s⟩)
    (hstep : blockedStep host ⟨.outer, blocks, previous, s⟩ = .ok f) : BlockedInv f := by
  obtain ⟨hcache, hprevious⟩ := h
  cases hhalt : s.mips.halted with
  | true =>
      rw [blockedStep_outer_halted host previous s hhalt] at hstep
      cases hstep
      exact ⟨hcache, trivial⟩
  | false =>
      -- Links are patched in a list that has the previous block at its place.
      have hlinked : ∀ {blocks' : List Block} {current : Nat} {c : Block},
          CacheInv blocks' →
          (∀ (p : Nat) (b : Block), blocks[p]? = some b → blocks'[p]? = some b) →
          blocks'[current]? = some c → c.address = s.reg MIPS_R_PC →
          BlockedInv ⟨.inner current, linkPrevious blocks' previous s.mips.branched current,
            previous, s⟩ := by
        intro blocks' current c hcache' hkeep hc haddr
        have hlink := hcache'.linkPrevious previous s.mips.branched hc fun p b hp hb hind => by
            obtain ⟨b', hb', hexit⟩ := hprevious p hp
            have heq : b = b' := Option.some.inj (hb.symm.trans (hkeep p b' hb'))
            subst heq
            exact haddr.trans (hexit hind)
        obtain ⟨c', hc', haddr', -⟩ := linkPrevious_keeps previous s.mips.branched current hc
        exact ⟨hlink, c', hc', haddr'.trans haddr⟩
      rcases blockedStep_outer host previous s hhalt hstep with ⟨current, hfind, rfl⟩ | ⟨b, hfind, hb, rfl⟩
      · obtain ⟨c, hc, haddr⟩ := hashFind_some hfind
        exact hlinked hcache (fun p b hb => hb) hc haddr
      · obtain ⟨code, hlen, -, hchain, rfl⟩ := (decodeBlock_eq_ok hhalt).mp hb
        refine hlinked (hcache.append (blockOf_decoded hlen hchain) rfl fun p c hc =>
          hashFind_none hfind hc) (fun p b hb => ?_) List.getElem?_concat_length rfl
        exact getElem?_concat_eq_some.mpr (.inl hb)

/-- The unrolled loop goes on to the next op, or to its test. -/
theorem unrolled_inv {current k case : Nat}
    (h : BlockedInv ⟨.unrolled current k case, blocks, previous, s⟩)
    (hstep : blockedStep host ⟨.unrolled current k case, blocks, previous, s⟩ = .ok f) :
    BlockedInv f := by
  obtain ⟨hcache, b, code, hb, hin, hk, hone, height, hmod⟩ := h
  have hw : code[k]? = some code[k] := List.getElem?_eq_getElem hk
  rw [blockedStep_unrolled host previous s case hb (hin.decoded.op_lt hw)] at hstep
  cases ht : execute host code[k].2 code[k].1 s with
  | error e => rw [ht] at hstep; cases hstep
  | ok t =>
      rw [ht] at hstep
      cases hstep
      have hin' := hin.step hw ht
      refine ⟨hcache, ?_⟩
      by_cases hcase : case = 1
      · rw [if_pos hcase]
        exact ⟨b, code, hb, hin', by omega⟩
      · -- The congruence keeps the terminator out of reach before the next test.
        rw [if_neg hcase]
        exact ⟨b, code, hb, hin', by omega, ⟨by omega, by omega, by omega⟩⟩

/-- The test is made on an op of the block, or on its terminator. -/
theorem test_inv {current k : Nat} (h : BlockedInv ⟨.test current k, blocks, previous, s⟩)
    (hstep : blockedStep host ⟨.test current k, blocks, previous, s⟩ = .ok f) :
    BlockedInv f := by
  obtain ⟨hcache, b, code, hb, hin, hmod⟩ := h
  rcases Nat.lt_or_ge k code.length with hk | hk
  · have hw : code[k]? = some code[k] := List.getElem?_eq_getElem hk
    rw [blockedStep_test host previous s hb (hin.decoded.op_lt hw)] at hstep
    cases hstep
    exact ⟨hcache, b, code, hb, hin, hk, ⟨by decide, by decide, by omega⟩⟩
  · have hkn : k = code.length := Nat.le_antisymm hin.le hk
    subst hkn
    rw [blockedStep_test host previous s hb hin.decoded.op_length] at hstep
    cases hstep
    exact ⟨hcache, b, hb, hin.settled (by omega)⟩

/-- The block is left. Where its link is followed, `CacheInv` says what block that is. -/
theorem leave_inv {current : Nat} (h : BlockedInv ⟨.leave current, blocks, previous, s⟩)
    (hstep : blockedStep host ⟨.leave current, blocks, previous, s⟩ = .ok f) :
    BlockedInv f := by
  obtain ⟨hcache, b, hb, hset⟩ := h
  rw [blockedStep_leave host previous s hb] at hstep
  cases hstep
  have houter : AtControl blocks (some current) (s.setReg MIPS_R_PC (s.reg MIPS_R_NNPC))
      .outer := by
    intro p hp
    cases hp
    exact ⟨b, hb, hset⟩
  refine ⟨hcache, ?_⟩
  show AtControl blocks (some current) _ (afterBlock b s.mips)
  rcases afterBlock_cases b s.mips with hcontrol | ⟨q, hcontrol, hnext, hind, -⟩
  · rw [hcontrol]
    exact houter
  · rw [hcontrol]
    obtain ⟨c, hc, haddr⟩ := hcache.next_address current b hb _ q hnext
    exact ⟨c, hc, haddr.trans (hset hind).symm⟩

end StepInvariant

/-- One step of the engine keeps the invariant. -/
theorem blockedStep_inv {e f : BlockedState} (h : BlockedInv e)
    (hstep : blockedStep host e = .ok f) : BlockedInv f := by
  obtain ⟨control, blocks, previous, s⟩ := e
  cases control with
  | outer => exact outer_inv h hstep
  | inner current =>
      obtain ⟨hcache, b, hb, haddr⟩ := h
      rw [blockedStep_inner host previous s hb] at hstep
      cases hstep
      obtain ⟨code, hcode⟩ := hcache.decoded current b hb
      obtain ⟨hone, height, hmod⟩ := hcode.terminated.firstCase_spec
      have hlen := hcode.length_pos
      exact ⟨hcache, b, code, hb, inBlock_preIncrement hcode haddr, by omega,
        ⟨hone, height, by omega⟩⟩
  | unrolled current k case => exact unrolled_inv h hstep
  | test current k => exact test_inv h hstep
  | leave current => exact leave_inv h hstep
  | returned =>
      cases hstep
      exact h

/-- The invariant holds wherever the engine gets from a state that has it. -/
theorem BlockedInv.of_reaches {e f : BlockedState} (he : BlockedInv e)
    (h : (interpreterBlocked host).Reaches e f) : BlockedInv f :=
  h.invariant (fun _ _ hI _ hstep => blockedStep_inv hI hstep) he

/-! ### Where the blocks come from -/

/-- Two blocks with everything in common but their links. -/
def SameBlock (b c : Block) : Prop := c = { b with next := c.next }

theorem SameBlock.refl (b : Block) : SameBlock b b := rfl

theorem SameBlock.trans {b c d : Block} (h₁ : SameBlock b c) (h₂ : SameBlock c d) :
    SameBlock b d := by
  unfold SameBlock at *
  rw [h₂, h₁]

theorem SameBlock.address {b c : Block} (h : SameBlock b c) : c.address = b.address := by
  rw [h]

theorem SameBlock.decoded {b c : Block} {code : Code} (h : SameBlock b c) (hb : b.Decoded code) :
    c.Decoded code := by
  rw [h]
  exact ⟨hb.size, hb.ops, hb.indirect, hb.chain, hb.length_le⟩

theorem SameBlock.exitPc {b c : Block} (h : SameBlock b c) : exitPc c = exitPc b := by
  rw [h]
  rfl

theorem sameBlock_link (b : Block) (taken : Bool) (current : Nat) :
    SameBlock b (b.link taken current) := rfl

theorem sameBlock_linkPrevious {blocks : List Block} {previous : Option Nat} {branched : Bool}
    {current p : Nat} {b : Block}
    (h : (linkPrevious blocks previous branched current)[p]? = some b) :
    ∃ b₀, blocks[p]? = some b₀ ∧ SameBlock b₀ b := by
  obtain ⟨b₀, hb₀, rfl | ⟨-, -, rfl⟩⟩ := linkPrevious_cases h
  · exact ⟨_, hb₀, .refl _⟩
  · exact ⟨b₀, hb₀, sameBlock_link _ _ _⟩

/-- Only the outer loop changes the blocks. -/
theorem blockedStep_blocks {e f : BlockedState} (hcontrol : e.control ≠ .outer)
    (h : blockedStep host e = .ok f) : f.blocks = e.blocks := by
  obtain ⟨control, blocks, previous, s⟩ := e
  cases control with
  | outer => exact absurd rfl hcontrol
  | inner current =>
      obtain ⟨b, -, h⟩ := bind_eq_ok.mp h
      cases h
      rfl
  | unrolled current k case =>
      obtain ⟨b, -, h⟩ := bind_eq_ok.mp h
      obtain ⟨op, -, h⟩ := bind_eq_ok.mp h
      cases hop : op.op with
      | none => rw [hop] at h; cases h
      | some i =>
          rw [hop] at h
          obtain ⟨t, -, h⟩ := bind_eq_ok.mp h
          cases h
          rfl
  | test current k =>
      obtain ⟨b, -, h⟩ := bind_eq_ok.mp h
      obtain ⟨op, -, h⟩ := bind_eq_ok.mp h
      cases h
      rfl
  | leave current =>
      obtain ⟨b, -, h⟩ := bind_eq_ok.mp h
      cases h
      rfl
  | returned =>
      cases h
      rfl

/-- A block after a step: it was there before, or this step decoded it. -/
theorem blockedStep_block {e f : BlockedState} (h : blockedStep host e = .ok f) {p : Nat}
    {b : Block} (hb : f.blocks[p]? = some b) :
    (∃ b₀, e.blocks[p]? = some b₀ ∧ SameBlock b₀ b) ∨
      e.control = .outer ∧ e.machine.mips.halted = false ∧
        ∃ b₀, decodeBlock e.machine.mips e.machine.memory = .ok b₀ ∧ SameBlock b₀ b := by
  by_cases hcontrol : e.control = .outer
  · obtain ⟨control, blocks, previous, s⟩ := e
    cases hcontrol
    cases hhalt : s.mips.halted with
    | true =>
        rw [blockedStep_outer_halted host previous s hhalt] at h
        cases h
        exact .inl ⟨b, hb, .refl b⟩
    | false =>
        rcases blockedStep_outer host previous s hhalt h with ⟨current, -, rfl⟩ | ⟨b', -, hb', rfl⟩
        · exact .inl (sameBlock_linkPrevious hb)
        · obtain ⟨b₀, hb₀, hsame⟩ := sameBlock_linkPrevious hb
          rcases getElem?_concat_eq_some.mp hb₀ with hb₀ | ⟨-, rfl⟩
          · exact .inl ⟨b₀, hb₀, hsame⟩
          · exact .inr ⟨rfl, rfl, b₀, hb', hsame⟩
  · rw [blockedStep_blocks hcontrol h] at hb
    exact .inl ⟨b, hb, .refl b⟩

/-- A block stays at its place, and only its links change. -/
theorem blockedStep_keeps {e f : BlockedState} (h : blockedStep host e = .ok f) {p : Nat}
    {b : Block} (hb : e.blocks[p]? = some b) : ∃ c, f.blocks[p]? = some c ∧ SameBlock b c := by
  by_cases hcontrol : e.control = .outer
  · obtain ⟨control, blocks, previous, s⟩ := e
    cases hcontrol
    -- Linking writes `next` of one block and nothing else.
    have hlink : ∀ {blocks' : List Block} {current : Nat}, blocks'[p]? = some b →
        ∃ c, (linkPrevious blocks' previous s.mips.branched current)[p]? = some c ∧
          SameBlock b c := by
      intro blocks' current hb'
      rw [getElem?_linkPrevious, hb']
      refine ⟨_, rfl, ?_⟩
      dsimp only
      split_ifs
      · exact sameBlock_link _ _ _
      · exact .refl b
    cases hhalt : s.mips.halted with
    | true =>
        rw [blockedStep_outer_halted host previous s hhalt] at h
        cases h
        exact ⟨b, hb, .refl b⟩
    | false =>
        rcases blockedStep_outer host previous s hhalt h with ⟨current, -, rfl⟩ | ⟨b', -, -, rfl⟩
        · exact hlink hb
        · exact hlink (getElem?_concat_eq_some.mpr (.inl hb))
  · rw [blockedStep_blocks hcontrol h]
    exact ⟨b, hb, .refl b⟩

/-- The same over a run. -/
theorem reaches_keeps {e f : BlockedState} (h : (interpreterBlocked host).Reaches e f) {p : Nat}
    {b : Block} (hb : e.blocks[p]? = some b) : ∃ c, f.blocks[p]? = some c ∧ SameBlock b c := by
  refine h.invariant (I := fun f => ∃ c, f.blocks[p]? = some c ∧ SameBlock b c) ?_
    ⟨b, hb, .refl b⟩
  rintro d d' ⟨c, hc, hsame⟩ - hstep
  obtain ⟨c', hc', hsame'⟩ := blockedStep_keeps hstep hc
  exact ⟨c', hc', hsame.trans hsame'⟩

/-- `b` was decoded on the way from `s` to `e`, with the program counter at its address. -/
def DecodedOnTheWay (host : Host) (s : Machine) (e : BlockedState) (b : Block) : Prop :=
  ∃ d b₀, (interpreterBlocked host).Reaches (.start s) d ∧ (interpreterBlocked host).Reaches d e ∧
    d.machine.reg MIPS_R_PC = b.address ∧
    decodeBlock d.machine.mips d.machine.memory = .ok b₀ ∧ SameBlock b₀ b

/-- Every cached block was decoded at its address. -/
theorem decodedOnTheWay_of_reaches {s : Machine} {e : BlockedState}
    (h : (interpreterBlocked host).Reaches (.start s) e) {p : Nat} {b : Block}
    (hb : e.blocks[p]? = some b) : DecodedOnTheWay host s e b := by
  have hall : (interpreterBlocked host).Reaches (.start s) e ∧
      ∀ (p : Nat) (b : Block), e.blocks[p]? = some b → DecodedOnTheWay host s e b := by
    refine h.invariant (I := fun e => (interpreterBlocked host).Reaches (.start s) e ∧
      ∀ (p : Nat) (b : Block), e.blocks[p]? = some b → DecodedOnTheWay host s e b) ?_ ⟨.refl _, ?_⟩
    · rintro e f ⟨hreach, hold⟩ hdone hstep
      have hone : (interpreterBlocked host).Reaches e f := ⟨_, .single hdone hstep⟩
      refine ⟨hreach.trans hone, fun p b hb => ?_⟩
      rcases blockedStep_block hstep hb with ⟨b₀, hb₀, hsame⟩ | ⟨-, hhalt, b₀, hb₀, hsame⟩
      · obtain ⟨d, b₁, hd, hde, hpc, hb₁, hsame₁⟩ := hold p b₀ hb₀
        refine ⟨d, b₁, hd, hde.trans hone, hpc.trans ?_, hb₁, hsame₁.trans hsame⟩
        rw [hsame]
      · obtain ⟨code, -, -, -, rfl⟩ := (decodeBlock_eq_ok hhalt).mp hb₀
        refine ⟨e, _, hreach, hone, ?_, hb₀, hsame⟩
        rw [hsame]
        rfl
    · intro p b hb
      cases hb
  exact hall.2 p b hb

/-- The `indirect` flag says that the block has a transfer to a register. -/
theorem Block.Decoded.indirect_iff {b : Block} {code : Code} (h : b.Decoded code) :
    b.indirect = true ↔ ∃ op ∈ b.ops, ∃ i, op.op = some i ∧ i.isIndirect = true := by
  rw [h.indirect, h.ops, hasIndirect, List.any_eq_true]
  constructor
  · rintro ⟨w, hw, hi⟩
    exact ⟨opOf w, List.mem_append_left _ (List.mem_map_of_mem hw), w.2, rfl, hi⟩
  · rintro ⟨op, hop, i, hi, hind⟩
    rcases List.mem_append.mp hop with hop | hop
    · obtain ⟨w, hw, rfl⟩ := List.mem_map.mp hop
      cases hi
      exact ⟨w, hw, hind⟩
    · rw [List.mem_singleton.mp hop] at hi
      cases hi

/-- A block that is run from any machine at its address ends where its links say. -/
theorem BlockedInv.link_address {e : BlockedState} (h : BlockedInv e) {p q : Nat} {b : Block}
    {taken : Bool} (hb : e.blocks[p]? = some b) (hq : b.next taken = some q) :
    ∃ c, e.blocks[q]? = some c ∧ ∀ previous t f g, t.reg MIPS_R_PC = b.address →
      (interpreterBlocked host).Reaches ⟨.inner p, e.blocks, previous, t⟩ f →
      f.control = .leave p → blockedStep host f = .ok g → g.machine.mips.branched = taken →
      g.machine.reg MIPS_R_PC = c.address := by
  obtain ⟨c, hc, haddr⟩ := h.cache.next_address p b hb taken q hq
  refine ⟨c, hc, fun previous t f g ht hreach hcontrol hstep hbranched => ?_⟩
  have hentry : BlockedInv ⟨.inner p, e.blocks, previous, t⟩ := ⟨h.cache, b, hb, ht.symm⟩
  obtain ⟨hcache, hleave⟩ := hentry.of_reaches hreach
  obtain ⟨b', hb', hsame⟩ := reaches_keeps hreach hb
  obtain ⟨control, blocks, previous', s⟩ := f
  cases hcontrol
  obtain ⟨b'', hb'', hset⟩ := hleave
  have heq : b'' = b' := Option.some.inj (hb''.symm.trans hb')
  subst heq
  rw [blockedStep_leave host previous' s hb''] at hstep
  cases hstep
  -- An indirect block has no link, so this one is direct and its branch is settled.
  have hind : b.indirect = false := by
    by_contra hne
    rw [h.cache.indirect_next p b hb (by simpa using hne)] at hq
    cases hq
  have hind' : b''.indirect = false := by
    rw [hsame]
    exact hind
  have hpc : s.reg MIPS_R_NNPC = exitPc b'' s.mips.branched := hset hind'
  show s.reg MIPS_R_NNPC = c.address
  rw [hpc, hsame.exitPc, haddr, ← hbranched]
  rfl

/-- The cache and its links, in every state the engine reaches: one block an address,
decoded there; indirect blocks have no links; a link leads to the block at the address
where its own block ends, from any registers and memory; so a link that is followed
gives the block `HASH_FIND` would find. -/
theorem blockCache_sound (host : Host) (s : Machine) (e : BlockedState)
    (h : (interpreterBlocked host).Reaches (.start s) e) :
    (∀ (p q : Nat) (b c : Block), e.blocks[p]? = some b → e.blocks[q]? = some c →
      b.address = c.address → p = q) ∧
    (∀ (p : Nat) (b : Block), e.blocks[p]? = some b → DecodedOnTheWay host s e b) ∧
    (∀ (p : Nat) (b : Block), e.blocks[p]? = some b →
      (b.indirect = true ↔ ∃ op ∈ b.ops, ∃ i, op.op = some i ∧ i.isIndirect = true) ∧
      (b.indirect = true → ∀ taken, b.next taken = none)) ∧
    (∀ (p q : Nat) (b : Block) (taken : Bool), e.blocks[p]? = some b → b.next taken = some q →
      ∃ c, e.blocks[q]? = some c ∧ ∀ previous t f g, t.reg MIPS_R_PC = b.address →
        (interpreterBlocked host).Reaches ⟨.inner p, e.blocks, previous, t⟩ f →
        f.control = .leave p → blockedStep host f = .ok g → g.machine.mips.branched = taken →
        g.machine.reg MIPS_R_PC = c.address) ∧
    ∀ (p q : Nat) (f : BlockedState), e.control = .leave p → blockedStep host e = .ok f →
      f.control = .inner q → hashFind f.blocks (f.machine.reg MIPS_R_PC) = some q := by
  have hinv : BlockedInv e := (blockedInv_start s).of_reaches h
  refine ⟨hinv.cache.distinct, fun p b hb => decodedOnTheWay_of_reaches h hb, ?_, ?_, ?_⟩
  · intro p b hb
    obtain ⟨code, hcode⟩ := hinv.cache.decoded p b hb
    exact ⟨hcode.indirect_iff, hinv.cache.indirect_next p b hb⟩
  · intro p q b taken hb hq
    exact hinv.link_address hb hq
  · intro p q f _ hstep hinner
    obtain ⟨hcache, hcontrol⟩ := blockedStep_inv hinv hstep
    rw [hinner] at hcontrol
    obtain ⟨b, hb, haddr⟩ := hcontrol
    rw [← haddr]
    exact hcache.hashFind_eq hb

/-- The first block runs for the second time, and the link to the other one is followed: that is
the block at the program counter. -/
theorem blockCache_sound_pingPong :
    ∃ e f, (interpreterBlocked failingHost).Reaches (.start pingPong) e ∧
      e.control = .leave 0 ∧ (e.blocks.map fun b => b.next true) = [some 1, some 0] ∧
      blockedStep failingHost e = .ok f ∧ f.control = .inner 1 ∧
      hashFind f.blocks (f.machine.reg MIPS_R_PC) = some 1 := by
  obtain ⟨e, he, hp⟩ : ∃ e, (interpreterBlocked failingHost).exec 20 (.start pingPong) = .ok e ∧
      (decide (e.control = .leave 0 ∧ (e.blocks.map fun b => b.next true) = [some 1, some 0]) &&
        okWith (fun f => decide (f.control = .inner 1)) (blockedStep failingHost e)) = true :=
    okWith_eq_true.mp (by decide +kernel)
  obtain ⟨hstate, hnext⟩ := Bool.and_eq_true_iff.mp hp
  obtain ⟨hcontrol, hlinks⟩ := of_decide_eq_true hstate
  obtain ⟨f, hstep, hinner⟩ := okWith_eq_true.mp hnext
  have hinner : f.control = .inner 1 := of_decide_eq_true hinner
  have hreach := reaches_of_exec he
  obtain ⟨-, -, -, -, hfind⟩ := blockCache_sound failingHost _ e hreach
  exact ⟨e, f, hreach, hcontrol, hlinks, hstep, hinner, hfind 0 1 f hcontrol hstep hinner⟩

end MipsEngines
