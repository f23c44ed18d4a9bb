import MipsEngines.Proofs.Decode

/-!
# `MipsEngines.Proofs.EndlessChain`: the chains of labels that never end

`decode_block` follows the program counter from label to label, and the memory does not change
under it. After `2 ^ 30` words the counter is where it was, so a chain that is longer goes on for
ever: all its words are transfers, or none of them is. `endless_of_diverge` makes that out of
`decodeLoop` running out of fuel, and `Endless.diverge` says that no fuel would do.
-/

set_option autoImplicit false

namespace MipsEngines

open Lib

variable {memory : Memory} {halted branched indirect : Bool} {fuel : Nat} {pc : U32} {ops : List Op}

/-! ### Labels -/

/-- The word at `pc` has a label, of a transfer if `control` is set. -/
def LabelAt (memory : Memory) (control : Bool) (pc : U32) : Prop :=
  ∃ cir i, memoryReadU32 memory pc = .ok cir ∧ tableDispatch cir = .ok i ∧ i.isControl = control

/-- One word has one label. -/
theorem LabelAt.unique {c c' : Bool} (h : LabelAt memory c pc) (h' : LabelAt memory c' pc) :
    c = c' := by
  obtain ⟨cir, i, hread, hdispatch, rfl⟩ := h
  obtain ⟨cir', i', hread', hdispatch', rfl⟩ := h'
  cases hread.symm.trans hread'
  cases hdispatch.symm.trans hdispatch'
  rfl

theorem jumpThrough_ne_diverge {α : Type} (table : List (Option α)) (i : Nat) :
    jumpThrough table i ≠ .error .diverge := by
  unfold jumpThrough
  split <;> simp

theorem tableDispatch_ne_diverge (cir : U32) : tableDispatch cir ≠ .error .diverge := by
  intro h
  rcases bind_eq_error.mp h with h | ⟨label, -, h⟩
  · exact jumpThrough_ne_diverge _ _ h
  · cases label with
    | secondary => exact jumpThrough_ne_diverge _ _ h
    | branch => exact jumpThrough_ne_diverge _ _ h
    | instr i => cases h

theorem memoryFindPage_ne_diverge (memory : Memory) (pc : U32) :
    memoryFindPage memory pc ≠ .error .diverge := by
  unfold memoryFindPage
  cases memory.pageTables (ptIdx pc) with
  | none => simp
  | some table =>
      dsimp only
      cases table (peIdx pc) <;> simp

theorem memoryReadU32_ne_diverge (memory : Memory) (pc : U32) :
    memoryReadU32 memory pc ≠ .error .diverge := by
  intro h
  rcases bind_eq_error.mp h with h | ⟨page, -, h⟩
  · exact memoryFindPage_ne_diverge memory pc h
  · dsimp only at h
    split_ifs at h
    · cases h
    · cases h

/-! ### One label -/

/-- A transfer always goes on, and the next label is in its delay slot. -/
theorem decodeLoop_control (h : LabelAt memory true pc) (halted : Bool) (fuel : Nat)
    (branched indirect : Bool) (ops : List Op) :
    ∃ indirect' op, decodeLoop memory halted (fuel + 1) pc branched indirect ops
      = decodeLoop memory halted fuel (pc + 4) true indirect' (ops ++ [op]) := by
  obtain ⟨cir, i, hread, hdispatch, hcontrol⟩ := h
  rw [decodeLoop, hread, ok_bind, hdispatch, ok_bind]
  dsimp only
  rw [if_pos hcontrol]
  split_ifs
  · exact ⟨true, _, rfl⟩
  · exact ⟨indirect, _, rfl⟩

/-- Any other label goes on in front of the first transfer, and else it is the last one. -/
theorem decodeLoop_plain (h : LabelAt memory false pc) (halted : Bool) (fuel : Nat)
    (branched indirect : Bool) (ops : List Op) :
    ∃ cir op, decodeLoop memory halted (fuel + 1) pc branched indirect ops
      = if !branched && !halted then
          decodeLoop memory halted fuel (pc + 4) branched indirect (ops ++ [op])
        else .ok (ops ++ [op], indirect, cir) := by
  obtain ⟨cir, i, hread, hdispatch, hcontrol⟩ := h
  refine ⟨cir, ⟨cir, some i⟩, ?_⟩
  rw [decodeLoop, hread, ok_bind, hdispatch, ok_bind]
  dsimp only
  rw [hcontrol, isIndirect_of_not_control hcontrol, if_neg (by decide), if_neg (by decide)]
  rfl

/-- The chain has a label at `pc`, unless it fails in another way. -/
theorem labelAt_of_diverge
    (h : decodeLoop memory halted (fuel + 1) pc branched indirect ops = .error .diverge) :
    ∃ c, LabelAt memory c pc := by
  rw [decodeLoop] at h
  rcases bind_eq_error.mp h with hread | ⟨cir, hread, h⟩
  · exact absurd hread (memoryReadU32_ne_diverge memory pc)
  · rcases bind_eq_error.mp h with hdispatch | ⟨i, hdispatch, -⟩
    · exact absurd hdispatch (tableDispatch_ne_diverge cir)
    · exact ⟨i.isControl, cir, i, hread, hdispatch, rfl⟩

/-! ### The whole chain -/

/-- The program counter `j` words on. -/
def wordsOn (pc : U32) (j : Nat) : U32 := pc + 4 * BitVec.ofNat 32 j

theorem wordsOn_zero (pc : U32) : wordsOn pc 0 = pc := BitVec.add_zero pc

theorem wordsOn_succ (pc : U32) (j : Nat) : wordsOn pc (j + 1) = wordsOn (pc + 4) j := by
  simp only [wordsOn, BitVec.ofNat_add, BitVec.mul_add, BitVec.add_assoc]
  rw [BitVec.add_comm (4 * BitVec.ofNat 32 j)]
  rfl

/-- `pc` wraps after `2 ^ 30` words. -/
theorem wordsOn_add_period (pc : U32) (j : Nat) : wordsOn pc (j + 2 ^ 30) = wordsOn pc j := by
  have hperiod : (4 * BitVec.ofNat 32 (2 ^ 30) : U32) = 0 := by decide
  rw [wordsOn, BitVec.ofNat_add, BitVec.mul_add, hperiod, wordsOn]
  exact congrArg (pc + ·) (BitVec.add_zero _)

theorem wordsOn_mod (pc : U32) (j : Nat) : wordsOn pc (j % 2 ^ 30) = wordsOn pc j := by
  conv_rhs => rw [← Nat.mod_add_div j (2 ^ 30)]
  induction j / 2 ^ 30 with
  | zero => rfl
  | succ n ih => rw [Nat.mul_succ, ← Nat.add_assoc, wordsOn_add_period, ih]

/-- A chain without end: transfers only, or none in front of any word. -/
def Endless (memory : Memory) (halted branched : Bool) (pc : U32) : Prop :=
  (∀ j, LabelAt memory true (wordsOn pc j)) ∨
    (∀ j, LabelAt memory false (wordsOn pc j)) ∧ branched = false ∧ halted = false

/-- A chain that outlasts the fuel has transfers from some word `i` on, and none before. -/
theorem labels_of_diverge
    (h : decodeLoop memory halted fuel pc branched indirect ops = .error .diverge) :
    ∃ i ≤ fuel, (∀ j < i, LabelAt memory false (wordsOn pc j)) ∧
      (∀ j, i ≤ j → j < fuel → LabelAt memory true (wordsOn pc j)) ∧
      (0 < i → branched = false ∧ halted = false) := by
  induction fuel generalizing pc branched indirect ops with
  | zero => exact ⟨0, Nat.le_refl 0, by simp, by simp, by simp⟩
  | succ fuel ih =>
      obtain ⟨c, hlabel⟩ := labelAt_of_diverge h
      cases c with
      | true =>
          obtain ⟨indirect', op, heq⟩ := decodeLoop_control hlabel halted fuel branched indirect
            ops
          obtain ⟨i, -, -, hcontrols, hplain⟩ := ih (heq.symm.trans h)
          -- The words behind the transfer are transfers as well.
          have hzero : i = 0 := Nat.eq_zero_of_not_pos fun hi => nomatch (hplain hi).1
          refine ⟨0, Nat.zero_le _, by simp, fun j _ hj => ?_, by simp⟩
          cases j with
          | zero => rwa [wordsOn_zero]
          | succ j =>
              rw [wordsOn_succ]
              exact hcontrols j (by omega) (by omega)
      | false =>
          obtain ⟨cir, op, heq⟩ := decodeLoop_plain hlabel halted fuel branched indirect ops
          rw [heq] at h
          split_ifs at h with hgo
          obtain ⟨i, hi, hplains, hcontrols, -⟩ := ih h
          refine ⟨i + 1, Nat.succ_le_succ hi, fun j hj => ?_, fun j hij hj => ?_, fun _ => ?_⟩
          · cases j with
            | zero => rwa [wordsOn_zero]
            | succ j =>
                rw [wordsOn_succ]
                exact hplains j (by omega)
          · cases j with
            | zero => cases hij
            | succ j =>
                rw [wordsOn_succ]
                exact hcontrols j (by omega) (by omega)
          · simpa using hgo

/-- A chain longer than all words goes on for ever. -/
theorem endless_of_diverge
    (h : decodeLoop memory halted fuel pc branched indirect ops = .error .diverge)
    (hfuel : decodeFuel ≤ fuel) : Endless memory halted branched pc := by
  have hfuel : 2 ^ 30 + 2 ≤ fuel := hfuel
  obtain ⟨i, hle, hplains, hcontrols, hflags⟩ := labels_of_diverge h
  have hlt : ∀ j : Nat, j % 2 ^ 30 < 2 ^ 30 := fun j => Nat.mod_lt j (Nat.two_pow_pos 30)
  rcases Nat.eq_zero_or_pos i with rfl | hpos
  · refine .inl fun j => ?_
    rw [← wordsOn_mod]
    exact hcontrols _ (Nat.zero_le _) (by have := hlt j; omega)
  · -- The first transfer is not behind a plain word, since that word comes again behind it.
    have hend : fuel ≤ i := by
      by_contra hi
      obtain ⟨j, hj, hij, hjf⟩ : ∃ j < i, i ≤ j + 2 ^ 30 ∧ j + 2 ^ 30 < fuel :=
        ⟨i - 2 ^ 30, by omega, by omega, by omega⟩
      have hcontrol := hcontrols (j + 2 ^ 30) hij hjf
      rw [wordsOn_add_period] at hcontrol
      cases hcontrol.unique (hplains j hj)
    refine .inr ⟨fun j => ?_, hflags hpos⟩
    rw [← wordsOn_mod]
    exact hplains _ (by have := hlt j; omega)

/-- One label of such a chain, and the chain from the next one on. -/
theorem Endless.step (h : Endless memory halted branched pc) :
    ∃ c, LabelAt memory c pc ∧ (c = false → branched = false ∧ halted = false) ∧
      Endless memory halted (c || branched) (pc + 4) := by
  rcases h with hcontrols | ⟨hplains, rfl, rfl⟩
  · refine ⟨true, by simpa [wordsOn_zero] using hcontrols 0, by simp, .inl fun j => ?_⟩
    rw [← wordsOn_succ]
    exact hcontrols (j + 1)
  · refine ⟨false, by simpa [wordsOn_zero] using hplains 0, by simp, .inr ⟨fun j => ?_, rfl, rfl⟩⟩
    rw [← wordsOn_succ]
    exact hplains (j + 1)

/-- No fuel is enough. -/
theorem Endless.diverge (h : Endless memory halted branched pc) (fuel : Nat) (indirect : Bool)
    (ops : List Op) :
    decodeLoop memory halted fuel pc branched indirect ops = .error .diverge := by
  induction fuel generalizing pc branched indirect ops with
  | zero => rfl
  | succ fuel ih =>
      obtain ⟨c, hlabel, hflags, hnext⟩ := h.step
      cases c with
      | true =>
          obtain ⟨indirect', op, heq⟩ := decodeLoop_control hlabel halted fuel branched indirect
            ops
          rw [heq]
          exact ih hnext indirect' _
      | false =>
          obtain ⟨rfl, rfl⟩ := hflags rfl
          obtain ⟨cir, op, heq⟩ := decodeLoop_plain hlabel false fuel false indirect ops
          rw [heq, if_pos (by decide)]
          exact ih hnext indirect _

end MipsEngines
