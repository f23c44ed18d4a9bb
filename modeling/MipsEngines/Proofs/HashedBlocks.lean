import MipsEngines.Proofs.BlockLinks
import MipsEngines.Proofs.UtHash

/-!
# `MipsEngines.Proofs.HashedBlocks`: the block engine on its hash table

`interpreterBlocked` searches its blocks as a list. `interpreterHashed` has the table of
`uthash.h` for it, with its pointers. `TableInv` is the invariant between the two: the table
represents the places of the list, under the addresses of the blocks. A patched link leaves
every address as it was, so only a new block touches the table.

`hashedBlocks_lockstep` says that the engines cannot be told apart as long as the table fits in
its counters (`TableFits`), and `hashedBlocks_table` what holds of the table until then.
-/

set_option autoImplicit false

namespace MipsEngines

open Lib StepMachine

variable {host : Host}

/-! ### The keys -/

/-- The address of the block at a place. -/
def blockKey (blocks : List Block) (p : Nat) : U32 := (blocks[p]?.map Block.address).getD 0

theorem blockKey_eq {blocks : List Block} {p : Nat} {b : Block} (hb : blocks[p]? = some b) :
    blockKey blocks p = b.address := by simp [blockKey, hb]

/-- The old blocks keep their addresses. -/
theorem blockKey_concat (blocks : List Block) (b : Block) {p : Nat} (hp : p < blocks.length) :
    blockKey (blocks ++ [b]) p = blockKey blocks p := by
  rw [blockKey, List.getElem?_append_left hp]
  rfl

theorem blockKey_linkPrevious (blocks : List Block) (previous : Option Nat) (branched : Bool)
    (current : Nat) :
    blockKey (linkPrevious blocks previous branched current) = blockKey blocks := by
  funext p
  rw [blockKey, getElem?_linkPrevious, Option.map_map]
  have haddress : (Block.address ∘ fun b : Block =>
      if previous = some p ∧ b.indirect = false then b.link branched current else b)
        = Block.address := by
    funext b
    rw [Function.comp_apply]
    split_ifs
    · exact Block.link_address b branched current
    · rfl
  rw [haddress]
  rfl

theorem length_linkPrevious (blocks : List Block) (previous : Option Nat) (branched : Bool)
    (current : Nat) : (linkPrevious blocks previous branched current).length = blocks.length := by
  cases previous with
  | none => rfl
  | some p => exact List.length_modify ..

/-- A search by key among the places is a search by address among the blocks. -/
theorem find?_range_blockKey (blocks : List Block) (address : U32) :
    ((List.range blocks.length).find? fun p => blockKey blocks p = address)
      = hashFind blocks address := by
  cases hfind : hashFind blocks address with
  | none =>
      rw [List.find?_range_eq_none]
      intro p hp
      have hb := List.getElem?_eq_getElem hp
      simpa [blockKey_eq hb] using hashFind_none hfind hb
  | some p =>
      obtain ⟨hp, haddress, hbefore⟩ := List.findIdx?_eq_some_iff_getElem.mp hfind
      rw [List.find?_range_eq_some]
      refine ⟨?_, List.mem_range.mpr hp, fun q hq => ?_⟩
      · rw [blockKey_eq (List.getElem?_eq_getElem hp)]
        exact haddress
      · have hq' : q < blocks.length := Nat.lt_trans hq hp
        rw [blockKey_eq (List.getElem?_eq_getElem hq')]
        simpa using hbefore q hq

/-! ### The invariant -/

/-- The table represents the blocks. -/
structure TableInv (e : HashedState) : Prop where
  blocked : BlockedInv e.toBlockedState
  table : e.hash.Represents (blockKey e.blocks) (List.range e.blocks.length)

theorem tableInv_start (s : Machine) : TableInv (.start s) where
  blocked := blockedInv_start s
  table := .empty rfl rfl fun _ => rfl

theorem TableInv.hashFind {e : HashedState} (h : TableInv e) (address : U32) :
    e.hash.hashFind address = .ok (MipsEngines.hashFind e.blocks address) := by
  rw [UtHash.hashFind_spec h.table, find?_range_blockKey]

/-- A new block goes into the table under its address, if no other block is there. -/
theorem TableInv.hashAdd {e : HashedState} (h : TableInv e) {b : Block}
    (hnew : MipsEngines.hashFind e.blocks b.address = none) :
    ∃ hash, e.hash.hashAdd e.blocks.length b.address = .ok hash ∧ (hash.Fits →
      hash.Represents (blockKey (e.blocks ++ [b])) (List.range (e.blocks ++ [b]).length)) := by
  have hold : ∀ p ∈ List.range e.blocks.length,
      blockKey (e.blocks ++ [b]) p = blockKey e.blocks p := fun p hp =>
    blockKey_concat e.blocks b (List.mem_range.mp hp)
  have haddress : blockKey (e.blocks ++ [b]) e.blocks.length = b.address :=
    blockKey_eq List.getElem?_concat_length
  have hother : ∀ p ∈ List.range e.blocks.length,
      blockKey (e.blocks ++ [b]) p ≠ blockKey (e.blocks ++ [b]) e.blocks.length := by
    intro p hp
    have hc := List.getElem?_eq_getElem (List.mem_range.mp hp)
    rw [hold p hp, haddress, blockKey_eq hc]
    exact hashFind_none hnew hc
  obtain ⟨hash, hrun, hr⟩ := UtHash.hashAdd_spec (h.table.congr hold) hother
  rw [haddress] at hrun
  refine ⟨hash, hrun, fun hfits => ?_⟩
  rw [List.length_append, List.length_singleton, List.range_succ]
  exact hr hfits

/-! ### One step -/

section Step

variable {e : HashedState}

/-- A round of the outer loop, on a table that represents the blocks. -/
theorem hashedStep_outer (h : TableInv e) (hcontrol : e.control = .outer) :
    (hashedStep host e).map HashedState.toBlockedState = blockedStep host e.toBlockedState ∧
      ∀ f, hashedStep host e = .ok f → f.hash.Fits →
        f.hash.Represents (blockKey f.blocks) (List.range f.blocks.length) := by
  unfold hashedStep blockedStep
  rw [hcontrol]
  dsimp only
  cases hhalt : e.machine.mips.halted with
  | true =>
      refine ⟨rfl, fun f hf _ => ?_⟩
      cases hf
      exact h.table
  | false =>
      rw [if_neg (by decide), if_neg (by decide), h.hashFind]
      cases hfind : MipsEngines.hashFind e.blocks (e.machine.reg MIPS_R_PC) with
      | some current =>
          refine ⟨rfl, fun f hf _ => ?_⟩
          cases hf
          show e.hash.Represents (blockKey (linkPrevious _ _ _ _))
            (List.range (linkPrevious _ _ _ _).length)
          rw [blockKey_linkPrevious, length_linkPrevious]
          exact h.table
      | none =>
          cases hb : decodeBlock e.machine.mips e.machine.memory with
          | error err => exact ⟨rfl, fun f hf => nomatch hf⟩
          | ok b =>
              obtain ⟨_, -, -, -, rfl⟩ := (decodeBlock_eq_ok hhalt).mp hb
              obtain ⟨hash, hrun, hr⟩ := h.hashAdd (b := blockOf _ _) hfind
              rw [ok_bind]
              dsimp only
              rw [ok_bind, hrun]
              refine ⟨rfl, fun f hf hfits => ?_⟩
              cases hf
              show hash.Represents (blockKey (linkPrevious _ _ _ _))
                (List.range (linkPrevious _ _ _ _).length)
              rw [blockKey_linkPrevious, length_linkPrevious]
              exact hr hfits

/-- Elsewhere the table is not used, and no block is added. -/
theorem hashedStep_inside (h : TableInv e) (hcontrol : e.control ≠ .outer) :
    (hashedStep host e).map HashedState.toBlockedState = blockedStep host e.toBlockedState ∧
      ∀ f, hashedStep host e = .ok f → f.hash.Fits →
        f.hash.Represents (blockKey f.blocks) (List.range f.blocks.length) := by
  have hstep : hashedStep host e = (blockedStep host e.toBlockedState).map fun e' =>
      { e' with hash := e.hash } := by
    unfold hashedStep
    dsimp only
    split
    · contradiction
    · cases blockedStep host e.toBlockedState <;> rfl
  rw [hstep]
  cases hrun : blockedStep host e.toBlockedState with
  | error err => exact ⟨rfl, fun f hf => nomatch hf⟩
  | ok e' =>
      refine ⟨rfl, fun f hf _ => ?_⟩
      cases hf
      show e.hash.Represents (blockKey e'.blocks) (List.range e'.blocks.length)
      rw [blockedStep_blocks hcontrol hrun]
      exact h.table

theorem hashedStep_spec (h : TableInv e) :
    (hashedStep host e).map HashedState.toBlockedState = blockedStep host e.toBlockedState ∧
      ∀ f, hashedStep host e = .ok f → f.hash.Fits → TableInv f := by
  have hcases : (hashedStep host e).map HashedState.toBlockedState
        = blockedStep host e.toBlockedState ∧
      ∀ f, hashedStep host e = .ok f → f.hash.Fits →
        f.hash.Represents (blockKey f.blocks) (List.range f.blocks.length) := by
    by_cases hcontrol : e.control = .outer
    · exact hashedStep_outer h hcontrol
    · exact hashedStep_inside h hcontrol
  obtain ⟨hmap, htable⟩ := hcases
  refine ⟨hmap, fun f hf hfits => ⟨?_, htable f hf hfits⟩⟩
  have hstep : blockedStep host e.toBlockedState = .ok f.toBlockedState := by
    rw [← hmap, hf]
    rfl
  exact blockedStep_inv h.blocked hstep

end Step

/-! ### Whole runs -/

/-- The table has at most `2 ^ 31` buckets in every state of the first `n` steps. -/
def TableFits (host : Host) (s : Machine) (n : Nat) : Prop :=
  ∀ k ≤ n, ∀ e, (interpreterHashed host).exec k (.start s) = .ok e → e.hash.Fits

/-- The engine on its hash table and the engine on a list have one outcome, after every number
of steps in which the table fits: the same state, or the same fault. No operation on the table
adds a fault. -/
theorem hashedBlocks_lockstep (host : Host) (s : Machine) (n : Nat) (hfits : TableFits host s n) :
    ((interpreterHashed host).exec n (.start s)).map HashedState.toBlockedState
      = (interpreterBlocked host).exec n (.start s) :=
  exec_map_of_invariant HashedState.toBlockedState (fun _ => rfl)
    (fun _ he _ => (hashedStep_spec he).1) (fun _ f he _ hf => (hashedStep_spec he).2 f hf) n
    (tableInv_start s) hfits

/-- Each of the two blocks is decoded once. The first one is found in the table, and the second one
through the link that the first one has to it. -/
theorem exec_pingPong :
    ∃ e, (interpreterHashed failingHost).exec 21 (.start pingPong) = .ok e ∧
      e.control = .inner 1 ∧
      (e.blocks.map fun b => (b.address, b.next true))
        = [(0x400000, some 1), (0x40000c, some 0)] := by
  obtain ⟨e, he, hp⟩ : ∃ e, (interpreterHashed failingHost).exec 21 (.start pingPong) = .ok e ∧
      decide (e.control = .inner 1 ∧ (e.blocks.map fun b => (b.address, b.next true))
        = [(0x400000, some 1), (0x40000c, some 0)]) = true :=
    okWith_eq_true.mp (by decide +kernel)
  exact ⟨e, he, of_decide_eq_true hp⟩

theorem tableFits_pingPong : TableFits failingHost pingPong 21 := by
  have h : (interpreterHashed failingHost).execAll (fun e => decide e.hash.Fits) 21
      (.start pingPong) = true := by decide +kernel
  exact fun k hk e he => of_decide_eq_true (of_execAll h hk he)

theorem hashedBlocks_lockstep_pingPong :
    ∃ e, (interpreterBlocked failingHost).exec 21 (.start pingPong) = .ok e ∧
      e.control = .inner 1 ∧
      (e.blocks.map fun b => (b.address, b.next true))
        = [(0x400000, some 1), (0x40000c, some 0)] := by
  obtain ⟨e, he, hcontrol, hblocks⟩ := exec_pingPong
  refine ⟨e.toBlockedState, ?_, hcontrol, hblocks⟩
  rw [← hashedBlocks_lockstep failingHost pingPong 21 tableFits_pingPong, he]
  rfl

/-- The invariant holds after every number of steps. -/
theorem tableInv_exec {s : Machine} {n : Nat} {e : HashedState} (hfits : TableFits host s n)
    (h : (interpreterHashed host).exec n (.start s) = .ok e) : TableInv e := by
  induction n generalizing e with
  | zero =>
      cases h
      exact tableInv_start s
  | succ n ih =>
      have hlast := hfits (n + 1) (Nat.le_refl _) e h
      rw [exec_succ] at h
      obtain ⟨f, hf, h⟩ := bind_eq_ok.mp h
      have hinv := ih (fun k hk => hfits k (Nat.le_succ_of_le hk)) hf
      split_ifs at h
      · cases h
        exact hinv
      · exact (hashedStep_spec hinv).2 e h hlast

/-- The table after every number of steps in which it fits: the debug check of `uthash.h` passes,
a search for an address finds the block there, or nothing if there is none, and the loop at the
end of `interpreter_blocked` would free every block once, and then the table, with no pointer read
after its block is freed. -/
theorem hashedBlocks_table (host : Host) (s : Machine) (n : Nat) (e : HashedState)
    (hfits : TableFits host s n) (h : (interpreterHashed host).exec n (.start s) = .ok e) :
    e.hash.hashFsck = .ok () ∧
    (∀ (p : Nat) (b : Block), e.blocks[p]? = some b → e.hash.hashFind b.address = .ok (some p)) ∧
    (∀ address, (∀ b ∈ e.blocks, b.address ≠ address) → e.hash.hashFind address = .ok none) ∧
    e.hash.freeBlocks = .ok (.empty, List.range e.blocks.length) := by
  have hinv := tableInv_exec hfits h
  refine ⟨UtHash.hashFsck_spec hinv.table, fun p b hb => ?_, fun address hnone => ?_,
    UtHash.freeBlocks_spec hinv.table⟩
  · rw [hinv.hashFind, hinv.blocked.cache.hashFind_eq hb]
  · rw [hinv.hashFind]
    exact congrArg Except.ok (List.findIdx?_eq_none_iff.mpr fun b hb => by simpa using hnone b hb)

/-- The same two blocks. -/
theorem hashedBlocks_table_pingPong :
    ∃ e, (interpreterHashed failingHost).exec 21 (.start pingPong) = .ok e ∧
      e.control = .inner 1 ∧ e.hash.hashFsck = .ok () ∧
      e.hash.hashFind 0x400000 = .ok (some 0) ∧ e.hash.hashFind 0x40000c = .ok (some 1) ∧
      e.hash.freeBlocks = .ok (.empty, [0, 1]) := by
  obtain ⟨e, he, hcontrol, hblocks⟩ := exec_pingPong
  obtain ⟨hfsck, hfind, -, hfree⟩ :=
    hashedBlocks_table failingHost pingPong 21 e tableFits_pingPong he
  have hlength : e.blocks.length = 2 := by simpa using congrArg List.length hblocks
  obtain ⟨b, c, hbc⟩ := List.length_eq_two.mp hlength
  simp only [hbc, List.map_cons, List.cons.injEq, Prod.mk.injEq] at hblocks
  obtain ⟨⟨hb, -⟩, ⟨hc, -⟩, -⟩ := hblocks
  rw [hlength] at hfree
  refine ⟨e, he, hcontrol, hfsck, ?_, ?_, hfree⟩
  · rw [← hb]
    exact hfind 0 b (by rw [hbc]; rfl)
  · rw [← hc]
    exact hfind 1 c (by rw [hbc]; rfl)

end MipsEngines
