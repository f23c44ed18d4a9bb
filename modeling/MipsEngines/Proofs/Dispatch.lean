import MipsEngines.Lib.Except
import MipsEngines.Model.Dispatch

/-!
# `MipsEngines.Proofs.Dispatch`: the arrays agree with the `switch`

The hand-written arrays and the generated `switch` select the same handler for
every word the `switch` supports (`tableDispatch_eq_ok_iff`). For the others the
`switch` takes a `default` arm, and the arrays are left through a gap or past
their end.

The fields that index the arrays are bounded, so the agreement is a check of 64,
64 and 32 entries.
-/

set_option autoImplicit false

namespace MipsEngines

open Lib

/-- Entry by entry, `secondary` is the secondary instruction list. -/
theorem secondary_eq_lookup :
    ∀ n : Fin 64, (jumpThrough secondary n.val).toOption = instructionsSecondary.lookup n.val := by
  decide +kernel

/-- Entry by entry, `branch` is the branch instruction list. -/
theorem branch_eq_lookup :
    ∀ n : Fin 32, (jumpThrough branch n.val).toOption = instructionsBranch.lookup n.val := by
  decide +kernel

/-- Past its first two entries, `primary` is the primary instruction list. -/
theorem primary_eq_lookup :
    ∀ n : Fin 64, n ≠ 0 → n ≠ 1 →
      (jumpThrough primary n.val).toOption = (instructionsPrimary.lookup n.val).map .instr := by
  decide +kernel

theorem primary_zero : jumpThrough primary 0 = .ok .secondary := by decide

theorem primary_one : jumpThrough primary 1 = .ok .branch := by decide

/-- The arrays lead where the `switch` does. -/
theorem toOption_tableDispatch (cir : U32) :
    (tableDispatch cir).toOption = switchDispatch cir := by
  unfold tableDispatch switchDispatch
  by_cases h0 : opField cir = 0
  · rw [if_pos h0, h0, primary_zero]
    exact secondary_eq_lookup ⟨fnField cir, fnField_lt cir⟩
  · rw [if_neg h0]
    by_cases h1 : opField cir = 1
    · rw [if_pos h1, h1, primary_one]
      exact branch_eq_lookup ⟨rtField cir, rtField_lt cir⟩
    · rw [if_neg h1]
      have h := primary_eq_lookup ⟨opField cir, opField_lt cir⟩
        (fun h => h0 (congrArg Fin.val h)) (fun h => h1 (congrArg Fin.val h))
      -- A label other than a handler would contradict `h`, which has `.instr` on the right.
      cases hl : instructionsPrimary.lookup (opField cir) with
      | none =>
          simp only [hl, Option.map_none] at h
          cases hj : jumpThrough primary (opField cir) with
          | error e => rfl
          | ok l => rw [hj] at h; cases h
      | some i =>
          simp only [hl, Option.map_some] at h
          cases hj : jumpThrough primary (opField cir) with
          | error e => rw [hj] at h; cases h
          | ok l => rw [hj] at h; cases h; rfl

/-- The arrays select handler `i` exactly when the `switch` does. -/
theorem tableDispatch_eq_ok_iff {cir : U32} {i : Instr} :
    tableDispatch cir = .ok i ↔ switchDispatch cir = some i := by
  rw [← toOption_tableDispatch]
  cases tableDispatch cir <;> simp [Except.toOption]

/-- A jump fails through an empty entry or past the end of its array. -/
theorem jumpThrough_error {α : Type} {table : List (Option α)} {i : Nat} {e : Fault}
    (h : jumpThrough table i = .error e) : e = .emptyEntry ∨ e = .outOfRange := by
  unfold jumpThrough at h
  split at h <;> cases h
  · exact .inr rfl
  · exact .inl rfl

/-- Where the `switch` takes a `default` arm, the arrays fault. -/
theorem tableDispatch_error_of_none {cir : U32} (h : switchDispatch cir = none) :
    ∃ e, tableDispatch cir = .error e := by
  rw [← toOption_tableDispatch] at h
  cases ht : tableDispatch cir with
  | error e => exact ⟨e, rfl⟩
  | ok i => rw [ht] at h; cases h

/-- They fail in a jump. -/
theorem tableDispatch_error {cir : U32} {e : Fault} (h : tableDispatch cir = .error e) :
    e = .emptyEntry ∨ e = .outOfRange := by
  unfold tableDispatch at h
  cases hl : jumpThrough primary (opField cir) with
  | error e' =>
      rw [hl] at h
      cases h
      exact jumpThrough_error hl
  | ok l =>
      rw [hl] at h
      cases l with
      | secondary => exact jumpThrough_error h
      | branch => exact jumpThrough_error h
      | instr i => cases h

end MipsEngines
