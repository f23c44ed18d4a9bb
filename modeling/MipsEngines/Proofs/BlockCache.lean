import MipsEngines.Proofs.Decode
import MipsEngines.Proofs.Pipeline

/-!
# `MipsEngines.Proofs.BlockCache`: the cache of blocks and its links

What holds in every reachable state of the block engine. `CacheInv` is about the
blocks alone: each is the decoding of some code, no two share an address, and every
link leads to the block at the address where its own block ends (`exitPc`). `AtControl` is
about the place control is at: which block is executed, how far, and what the
machine holds by then. One step keeps both (`blockedStep_inv`).

The unrolled loop takes eight ops between two of its tests. `firstCase` is chosen so
that the tests fall on multiples of eight ops before the end, which is why no op past
the terminator is read (`firstCase_spec`, and the congruences in `AtControl`).
-/

set_option autoImplicit false

namespace MipsEngines

open Lib StepMachine

/-! ### Blocks and the code they come from -/

/-- The parts of a block that the engine never changes come from `code`. -/
structure Block.Decoded (b : Block) (code : Code) : Prop where
  size : b.size = BitVec.ofNat 32 (code.length + 1)
  ops : b.ops = code.map opOf ++ [⟨lastWord code, none⟩]
  indirect : b.indirect = hasIndirect code
  chain : Chain false code
  length_le : code.length ≤ decodeFuel

/-- The address of the last control transfer of a block, where the engine sets the
program counter before it runs the block. -/
def branchAddress (b : Block) : U32 := b.address + 4 * (b.size - 3)

/-- Where the last control transfer of a block leads, if it is not a transfer to a
register: to its target, or to the word after its delay slot. -/
def exitPc (b : Block) (taken : Bool) : U32 :=
  match b.ops[b.ops.length - 3]? with
  | some ⟨cir, some i⟩ =>
      if taken then directTarget i cir (branchAddress b) else branchAddress b + 8
  | _ => 0

/-- `b->next[taken] = current`. -/
def Block.link (b : Block) (taken : Bool) (current : Nat) : Block :=
  { b with next := fun i => if i = taken then some current else b.next i }

@[simp] theorem Block.link_address (b : Block) (taken : Bool) (current : Nat) :
    (b.link taken current).address = b.address := rfl

@[simp] theorem Block.link_indirect (b : Block) (taken : Bool) (current : Nat) :
    (b.link taken current).indirect = b.indirect := rfl

@[simp] theorem Block.link_ops (b : Block) (taken : Bool) (current : Nat) :
    (b.link taken current).ops = b.ops := rfl

@[simp] theorem Block.link_size (b : Block) (taken : Bool) (current : Nat) :
    (b.link taken current).size = b.size := rfl

@[simp] theorem exitPc_link (b : Block) (taken : Bool) (current : Nat) :
    exitPc (b.link taken current) = exitPc b := rfl

@[simp] theorem branchAddress_link (b : Block) (taken : Bool) (current : Nat) :
    branchAddress (b.link taken current) = branchAddress b := rfl

/-- The ops of a block are those of `code` and a terminator, and its size counts them. -/
structure Block.Terminated (b : Block) (code : Code) : Prop where
  size : b.size = BitVec.ofNat 32 (code.length + 1)
  ops : ∃ cir, b.ops = code.map opOf ++ [⟨cir, none⟩]

namespace Block.Terminated

variable {b : Block} {code : Code}

/-- The ops before the terminator. -/
theorem op_lt (h : b.Terminated code) {k : Nat} {w : U32 × Instr} (hw : code[k]? = some w) :
    b.ops[k]? = some (opOf w) := by
  have hk : k < (code.map opOf).length := by
    rw [List.length_map]
    exact (List.getElem?_eq_some_iff.mp hw).1
  obtain ⟨cir, hops⟩ := h.ops
  rw [hops, List.getElem?_append_left hk, List.getElem?_map, hw]
  rfl

/-- The terminator. -/
theorem op_length (h : b.Terminated code) : ∃ cir, b.ops[code.length]? = some ⟨cir, none⟩ := by
  obtain ⟨cir, hops⟩ := h.ops
  refine ⟨cir, ?_⟩
  rw [hops, List.getElem?_append_right (by simp)]
  simp

/-- The first case label: from 1 to 8, and what is left after it is a multiple of 8. -/
theorem firstCase_spec (h : b.Terminated code) :
    1 ≤ firstCase b ∧ firstCase b ≤ 8 ∧ firstCase b % 8 = code.length % 8 := by
  have hsize : ((b.size - 1) % UNROLL_SIZE).toNat = code.length % 8 := by
    have hsub : b.size - 1 = BitVec.ofNat 32 code.length := by
      rw [h.size, BitVec.ofNat_add]
      exact BitVec.add_sub_cancel _ _
    -- A size that wraps leaves the same remainder, since 8 divides `2 ^ 32`.
    rw [hsub, BitVec.toNat_umod, BitVec.toNat_ofNat]
    show code.length % 2 ^ 32 % 8 = _
    omega
  simp only [firstCase, hsize]
  split_ifs with h0
  · omega
  · omega

end Block.Terminated

namespace Block.Decoded

variable {b : Block} {code : Code}

theorem length_pos (h : b.Decoded code) : 2 ≤ code.length := by
  obtain ⟨body, w, d, rfl, -, -⟩ := h.chain.ends
  simp

theorem terminated (h : b.Decoded code) : b.Terminated code := ⟨h.size, _, h.ops⟩

/-- The ops before the terminator. -/
theorem op_lt (h : b.Decoded code) {k : Nat} {w : U32 × Instr} (hw : code[k]? = some w) :
    b.ops[k]? = some (opOf w) := h.terminated.op_lt hw

/-- The terminator. -/
theorem op_length (h : b.Decoded code) : b.ops[code.length]? = some ⟨lastWord code, none⟩ := by
  rw [h.ops, List.getElem?_append_right (by simp)]
  simp

theorem link (h : b.Decoded code) (taken : Bool) (current : Nat) :
    (b.link taken current).Decoded code :=
  ⟨h.size, h.ops, h.indirect, h.chain, h.length_le⟩

/-- The last control transfer decides where the block ends. -/
theorem exitPc_eq {body : Code} {w d : U32 × Instr} (h : b.Decoded (body ++ [w, d]))
    (taken : Bool) :
    exitPc b taken =
      if taken then directTarget w.2 w.1 (branchAddress b) else branchAddress b + 8 := by
  have hlen : b.ops.length - 3 = body.length := by
    rw [h.ops]
    simp
  have hop : b.ops[body.length]? = some (opOf w) := h.op_lt (by simp)
  unfold exitPc
  rw [hlen, hop]
  rfl

end Block.Decoded

/-- A block that `decode_block` makes is decoded from its code. -/
theorem blockOf_decoded {address : U32} {code : Code} (hlen : code.length ≤ decodeFuel)
    (hchain : Chain false code) : (blockOf address code).Decoded code :=
  ⟨rfl, rfl, rfl, hchain, hlen⟩

/-! ### The steps of the engine -/

/-- The block is entered: a change of the pipe. -/
theorem preIncrement_withPipe (b : Block) (s : Machine) (p : Pipe) :
    preIncrement b (s.withPipe p) = s.withPipe { p with pc := p.pc + 4 * (b.size - 3) } :=
  setReg_pc_withPipe s p _

theorem derefBlock_eq_ok {blocks : List Block} {p : Nat} {b : Block} :
    derefBlock blocks p = .ok b ↔ blocks[p]? = some b := by
  unfold derefBlock
  cases blocks[p]? <;> simp

theorem derefOp_eq_ok {b : Block} {k : Nat} {op : Op} :
    derefOp b k = .ok op ↔ b.ops[k]? = some op := by
  unfold derefOp
  cases b.ops[k]? <;> simp

section Steps

variable (host : Host) {blocks : List Block} (previous : Option Nat) (s : Machine)
  {current k : Nat} (case : Nat) {b : Block}

theorem blockedStep_inner (hb : blocks[current]? = some b) :
    blockedStep host ⟨.inner current, blocks, previous, s⟩
      = .ok ⟨.unrolled current 0 (firstCase b), blocks, previous, preIncrement b s⟩ := by
  simp [blockedStep, derefBlock, hb]

theorem blockedStep_unrolled {w : U32 × Instr} (hb : blocks[current]? = some b)
    (hop : b.ops[k]? = some (opOf w)) :
    blockedStep host ⟨.unrolled current k case, blocks, previous, s⟩
      = (execute host w.2 w.1 s).map fun t =>
          ⟨if case = 1 then .test current (k + 1) else .unrolled current (k + 1) (case - 1),
            blocks, previous, t⟩ := by
  simp only [blockedStep, derefBlock, hb, derefOp, hop, opOf, ok_bind]
  cases execute host w.2 w.1 s <;> rfl

theorem blockedStep_test {op : Op} (hb : blocks[current]? = some b) (hop : b.ops[k]? = some op) :
    blockedStep host ⟨.test current k, blocks, previous, s⟩
      = .ok ⟨if op.op.isSome then .unrolled current k 8 else .leave current, blocks, previous,
          s⟩ := by
  simp [blockedStep, derefBlock, hb, derefOp, hop]

theorem blockedStep_leave (hb : blocks[current]? = some b) :
    blockedStep host ⟨.leave current, blocks, previous, s⟩
      = .ok ⟨afterBlock b s.mips, blocks, some current,
          s.setReg MIPS_R_PC (s.reg MIPS_R_NNPC)⟩ := by
  simp only [blockedStep, derefBlock, hb, ok_bind]
  rfl

/-- After a block: the outer loop, or a linked block of a direct one while running. -/
theorem afterBlock_cases (b : Block) (mips : Mips) :
    afterBlock b mips = .outer ∨ ∃ p, afterBlock b mips = .inner p ∧
      b.next mips.branched = some p ∧ b.indirect = false ∧ mips.halted = false := by
  unfold afterBlock
  cases b.next mips.branched with
  | none => exact .inl rfl
  | some p => cases b.indirect <;> cases mips.halted <;> simp

theorem blockedStep_outer_halted (hhalt : s.mips.halted = true) :
    blockedStep host ⟨.outer, blocks, previous, s⟩ = .ok ⟨.returned, blocks, previous, s⟩ := by
  simp [blockedStep, hhalt]

theorem blockedStep_outer_found (hhalt : s.mips.halted = false)
    (hfind : hashFind blocks (s.reg MIPS_R_PC) = some current) :
    blockedStep host ⟨.outer, blocks, previous, s⟩
      = .ok ⟨.inner current, linkPrevious blocks previous s.mips.branched current, previous,
          s⟩ := by
  simp [blockedStep, hhalt, hfind]

theorem blockedStep_outer_new (hhalt : s.mips.halted = false)
    (hfind : hashFind blocks (s.reg MIPS_R_PC) = none)
    (hb : decodeBlock s.mips s.memory = .ok b) :
    blockedStep host ⟨.outer, blocks, previous, s⟩
      = .ok ⟨.inner blocks.length,
          linkPrevious (blocks ++ [b]) previous s.mips.branched blocks.length, previous, s⟩ := by
  simp [blockedStep, hhalt, hfind, hb]

/-- A round of the outer loop that succeeds: it found the block, or decoded it. -/
theorem blockedStep_outer {e : BlockedState} (hhalt : s.mips.halted = false)
    (h : blockedStep host ⟨.outer, blocks, previous, s⟩ = .ok e) :
    (∃ current, hashFind blocks (s.reg MIPS_R_PC) = some current ∧
        e = ⟨.inner current, linkPrevious blocks previous s.mips.branched current, previous,
          s⟩) ∨
      ∃ b, hashFind blocks (s.reg MIPS_R_PC) = none ∧ decodeBlock s.mips s.memory = .ok b ∧
        e = ⟨.inner blocks.length,
          linkPrevious (blocks ++ [b]) previous s.mips.branched blocks.length, previous, s⟩ := by
  cases hfind : hashFind blocks (s.reg MIPS_R_PC) with
  | some current =>
      rw [blockedStep_outer_found host previous s hhalt hfind] at h
      cases h
      exact .inl ⟨current, rfl, rfl⟩
  | none =>
      cases hb : decodeBlock s.mips s.memory with
      | error e' => simp [blockedStep, hhalt, hfind, hb] at h
      | ok b =>
          rw [blockedStep_outer_new host previous s hhalt hfind hb] at h
          cases h
          exact .inr ⟨b, rfl, rfl, rfl⟩

end Steps

/-! ### The cache -/

/-- What holds of the blocks in every reachable state. -/
structure CacheInv (blocks : List Block) : Prop where
  decoded : ∀ (p : Nat) (b : Block), blocks[p]? = some b → ∃ code, b.Decoded code
  distinct : ∀ (p q : Nat) (b c : Block), blocks[p]? = some b → blocks[q]? = some c →
    b.address = c.address → p = q
  indirect_next : ∀ (p : Nat) (b : Block), blocks[p]? = some b → b.indirect = true →
    ∀ taken, b.next taken = none
  next_address : ∀ (p : Nat) (b : Block), blocks[p]? = some b → ∀ taken q,
    b.next taken = some q → ∃ c, blocks[q]? = some c ∧ c.address = exitPc b taken

theorem CacheInv.nil : CacheInv [] where
  decoded := by intro p b h; simp at h
  distinct := by intro p q b c h; simp at h
  indirect_next := by intro p b h; simp at h
  next_address := by intro p b h; simp at h

theorem hashFind_some {blocks : List Block} {address : U32} {p : Nat}
    (h : hashFind blocks address = some p) : ∃ b, blocks[p]? = some b ∧ b.address = address := by
  obtain ⟨hp, haddr, -⟩ := List.findIdx?_eq_some_iff_getElem.mp h
  exact ⟨blocks[p], List.getElem?_eq_getElem hp, by simpa using haddr⟩

theorem hashFind_none {blocks : List Block} {address : U32} (h : hashFind blocks address = none)
    {p : Nat} {b : Block} (hb : blocks[p]? = some b) : b.address ≠ address := by
  have hmem := List.mem_of_getElem? hb
  simpa using List.findIdx?_eq_none_iff.mp h b hmem

/-- With distinct addresses, `HASH_FIND` finds every block in the table. -/
theorem CacheInv.hashFind_eq {blocks : List Block} (h : CacheInv blocks) {p : Nat} {b : Block}
    (hb : blocks[p]? = some b) : hashFind blocks b.address = some p := by
  cases hfind : hashFind blocks b.address with
  | none => exact absurd rfl (hashFind_none hfind hb)
  | some q =>
      obtain ⟨c, hc, haddr⟩ := hashFind_some hfind
      rw [h.distinct q p c b hc hb haddr]

/-- A new block under a new address. -/
theorem CacheInv.append {blocks : List Block} (h : CacheInv blocks) {b : Block} {code : Code}
    (hb : b.Decoded code) (hnext : b.next = fun _ => none)
    (hnew : ∀ (p : Nat) (c : Block), blocks[p]? = some c → c.address ≠ b.address) :
    CacheInv (blocks ++ [b]) := by
  constructor
  case decoded =>
    intro p c hc
    rcases getElem?_concat_eq_some.mp hc with hc | ⟨-, rfl⟩
    · exact h.decoded p c hc
    · exact ⟨code, hb⟩
  case distinct =>
    intro p q c d hc hd heq
    -- An old block and the new one start at different addresses.
    rcases getElem?_concat_eq_some.mp hc with hc' | ⟨rfl, rfl⟩
    · rcases getElem?_concat_eq_some.mp hd with hd' | ⟨rfl, rfl⟩
      · exact h.distinct p q c d hc' hd' heq
      · exact absurd heq (hnew p c hc')
    · rcases getElem?_concat_eq_some.mp hd with hd' | ⟨rfl, -⟩
      · exact absurd heq.symm (hnew q d hd')
      · rfl
  case indirect_next =>
    intro p c hc hind taken
    rcases getElem?_concat_eq_some.mp hc with hc | ⟨-, rfl⟩
    · exact h.indirect_next p c hc hind taken
    · rw [hnext]
  case next_address =>
    intro p c hc taken q hq
    rcases getElem?_concat_eq_some.mp hc with hc | ⟨-, rfl⟩
    · obtain ⟨d, hd, haddr⟩ := h.next_address p c hc taken q hq
      exact ⟨d, getElem?_concat_eq_some.mpr (.inl hd), haddr⟩
    · rw [hnext] at hq
      cases hq

/-- The blocks after `linkPrevious`: one of them may have a new link. -/
theorem getElem?_linkPrevious (blocks : List Block) (previous : Option Nat) (branched : Bool)
    (current p : Nat) :
    (linkPrevious blocks previous branched current)[p]?
      = blocks[p]?.map fun b =>
          if previous = some p ∧ b.indirect = false then b.link branched current else b := by
  cases previous with
  | none => simp [linkPrevious]
  | some r =>
      rw [linkPrevious, List.getElem?_modify]
      by_cases hp : r = p
      · subst hp
        cases blocks[r]? with
        | none => rfl
        | some b => cases hind : b.indirect <;> simp [Block.link, hind]
      · simp [hp]

/-- A linked block differs from the block it was in its links only. -/
theorem linkPrevious_cases {blocks : List Block} {previous : Option Nat} {branched : Bool}
    {current p : Nat} {b : Block}
    (h : (linkPrevious blocks previous branched current)[p]? = some b) :
    ∃ b₀, blocks[p]? = some b₀ ∧
      (b = b₀ ∨ previous = some p ∧ b₀.indirect = false ∧ b = b₀.link branched current) := by
  rw [getElem?_linkPrevious] at h
  obtain ⟨b₀, hb₀, rfl⟩ := Option.map_eq_some_iff.mp h
  refine ⟨b₀, hb₀, ?_⟩
  split_ifs with hc
  · exact .inr ⟨hc.1, hc.2, rfl⟩
  · exact .inl rfl

/-- Every block stays at its place. -/
theorem linkPrevious_keeps {blocks : List Block} (previous : Option Nat) (branched : Bool)
    (current : Nat) {p : Nat} {b₀ : Block} (h : blocks[p]? = some b₀) :
    ∃ b, (linkPrevious blocks previous branched current)[p]? = some b ∧
      b.address = b₀.address ∧ b.indirect = b₀.indirect ∧ b.ops = b₀.ops ∧ b.size = b₀.size := by
  rw [getElem?_linkPrevious, h]
  refine ⟨_, rfl, ?_⟩
  dsimp only
  split_ifs with hc
  · exact ⟨rfl, rfl, rfl, rfl⟩
  · exact ⟨rfl, rfl, rfl, rfl⟩

/-- A link is patched: right when the previous block ends where the current one starts. -/
theorem CacheInv.linkPrevious {blocks : List Block} (h : CacheInv blocks)
    (previous : Option Nat) (branched : Bool) {current : Nat} {c : Block}
    (hcurrent : blocks[current]? = some c)
    (hprevious : ∀ p b, previous = some p → blocks[p]? = some b → b.indirect = false →
      c.address = exitPc b branched) :
    CacheInv (linkPrevious blocks previous branched current) := by
  constructor
  case decoded =>
    intro p b hb
    obtain ⟨b₀, hb₀, hcase⟩ := linkPrevious_cases hb
    obtain ⟨code, hcode⟩ := h.decoded p b₀ hb₀
    rcases hcase with rfl | ⟨-, -, rfl⟩
    · exact ⟨code, hcode⟩
    · exact ⟨code, hcode.link _ _⟩
  case distinct =>
    intro p q b d hb hd heq
    obtain ⟨b₀, hb₀, hcase⟩ := linkPrevious_cases hb
    obtain ⟨d₀, hd₀, hcase'⟩ := linkPrevious_cases hd
    have hb' : b.address = b₀.address := by rcases hcase with rfl | ⟨-, -, rfl⟩ <;> rfl
    have hd' : d.address = d₀.address := by rcases hcase' with rfl | ⟨-, -, rfl⟩ <;> rfl
    exact h.distinct p q b₀ d₀ hb₀ hd₀ (by rw [← hb', ← hd', heq])
  case indirect_next =>
    intro p b hb hind taken
    obtain ⟨b₀, hb₀, rfl | ⟨-, hind₀, rfl⟩⟩ := linkPrevious_cases hb
    · exact h.indirect_next p _ hb₀ hind taken
    · rw [Block.link_indirect, hind₀] at hind
      cases hind
  case next_address =>
    intro p b hb taken q hq
    obtain ⟨b₀, hb₀, hcase⟩ := linkPrevious_cases hb
    rcases hcase with rfl | ⟨hp, hind, rfl⟩
    · obtain ⟨d₀, hd₀, haddr⟩ := h.next_address p _ hb₀ taken q hq
      obtain ⟨d, hd, haddr', -⟩ := linkPrevious_keeps previous branched current hd₀
      exact ⟨d, hd, haddr'.trans haddr⟩
    · -- The link asked for is the new one, or an old one of the same block.
      by_cases ht : taken = branched
      · have hqc : q = current := by
          simpa [Block.link, ht] using hq.symm
        subst hqc
        obtain ⟨d, hd, haddr', -⟩ := linkPrevious_keeps previous branched q hcurrent
        refine ⟨d, hd, ?_⟩
        rw [haddr', exitPc_link, ht]
        exact hprevious p b₀ hp hb₀ hind
      · have hq₀ : b₀.next taken = some q := by simpa [Block.link, ht] using hq
        obtain ⟨d₀, hd₀, haddr⟩ := h.next_address p b₀ hb₀ taken q hq₀
        obtain ⟨d, hd, haddr', -⟩ := linkPrevious_keeps previous branched current hd₀
        exact ⟨d, hd, by rw [haddr', exitPc_link, haddr]⟩

end MipsEngines
