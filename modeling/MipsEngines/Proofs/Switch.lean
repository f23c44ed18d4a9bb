import MipsEngines.Proofs.Dispatch
import MipsEngines.Model.Engines

/-!
# `MipsEngines.Proofs.Switch`: what one round of the switch engine does

The switch engine is the reference the other engines are compared with. Its step is
taken apart once, into a fetch, a dispatch, the handler and the program counter
step (`switchStep_eq_ok`), and the ways it can fail are listed once
(`switchStep_eq_error`).
-/

set_option autoImplicit false

namespace MipsEngines

open Lib

variable {host : Host} {s s' : Machine}

/-- A round of the loop that succeeds. -/
theorem switchStep_eq_ok :
    switchStep host s = .ok s' ↔
      ∃ cir i t, fetch s = .ok cir ∧ switchDispatch cir = some i ∧
        execute host i cir s = .ok t ∧ s' = incrementPc t := by
  unfold switchStep
  rw [bind_eq_ok]
  constructor
  · rintro ⟨cir, hcir, h⟩
    cases hi : switchDispatch cir with
    | none => rw [hi] at h; cases h
    | some i =>
        rw [hi] at h
        obtain ⟨t, ht, h⟩ := bind_eq_ok.mp h
        cases h
        exact ⟨cir, i, t, hcir, hi, ht, rfl⟩
  · rintro ⟨cir, i, t, hcir, hi, ht, rfl⟩
    refine ⟨cir, hcir, ?_⟩
    rw [hi]
    exact bind_eq_ok.mpr ⟨t, ht, rfl⟩

/-- A round of the loop that fails: the word cannot be read, or it takes a
`default` arm, or its handler fails. -/
theorem switchStep_eq_error {e : Fault} (h : switchStep host s = .error e) :
    fetch s = .error e ∨
      (∃ cir, fetch s = .ok cir ∧ switchDispatch cir = none ∧ e = .abort) ∨
      ∃ cir i, fetch s = .ok cir ∧ switchDispatch cir = some i ∧
        execute host i cir s = .error e := by
  unfold switchStep at h
  rcases bind_eq_error.mp h with hcir | ⟨cir, hcir, h⟩
  · exact .inl hcir
  · cases hi : switchDispatch cir with
    | none => rw [hi] at h; cases h; exact .inr (.inl ⟨cir, hcir, hi, rfl⟩)
    | some i =>
        rw [hi] at h
        rcases bind_eq_error.mp h with ht | ⟨t, -, h⟩
        · exact .inr (.inr ⟨cir, i, hcir, hi, ht⟩)
        · cases h

end MipsEngines
