import Mathlib.Data.List.Basic

/-!
# `MipsEngines.Lib.Search`: loops that leave a list early

A loop over a list goes on past an element as long as `pass` holds of it. `Reached` says which
elements it gets to, each with the elements before it. What holds of all of them, or of one of
them, is taken apart along the list by `forall_reached_cons` and `exists_reached_cons`.
-/

set_option autoImplicit false

namespace MipsEngines.Lib

variable {α : Type} {pass : α → Prop} {l before : List α} {a x : α}

/-- The loop gets to `a`, past the elements `before`. -/
def Reached (pass : α → Prop) (l before : List α) (a : α) : Prop :=
  (∃ after, l = before ++ a :: after) ∧ ∀ b ∈ before, pass b

theorem not_reached_nil : ¬ Reached pass [] before a := by
  rintro ⟨⟨after, h⟩, -⟩
  simp at h

/-- The first element is reached, and if it passes so is what is reached in the rest. -/
theorem reached_cons : Reached pass (x :: l) before a ↔
    (before = [] ∧ a = x) ∨ ∃ tail, before = x :: tail ∧ pass x ∧ Reached pass l tail a := by
  cases before with
  | nil => simp [Reached, eq_comm]
  | cons y tail =>
      simp only [Reached, List.cons_append, List.cons.injEq, List.mem_cons, forall_eq_or_imp,
        reduceCtorEq, false_and, false_or]
      constructor
      · rintro ⟨⟨after, rfl, rfl⟩, hx, htail⟩
        exact ⟨tail, ⟨rfl, rfl⟩, hx, ⟨after, rfl⟩, htail⟩
      · rintro ⟨tail', ⟨rfl, rfl⟩, hx, ⟨after, rfl⟩, htail⟩
        exact ⟨⟨after, rfl, rfl⟩, hx, htail⟩

theorem forall_reached_cons {P : List α → α → Prop} :
    (∀ before a, Reached pass (x :: l) before a → P before a) ↔
      P [] x ∧ (pass x → ∀ before a, Reached pass l before a → P (x :: before) a) := by
  constructor
  · intro h
    refine ⟨h [] x (reached_cons.mpr (.inl ⟨rfl, rfl⟩)), fun hx before a ha => ?_⟩
    exact h _ _ (reached_cons.mpr (.inr ⟨before, rfl, hx, ha⟩))
  · rintro ⟨hhead, hrest⟩ before a ha
    rcases reached_cons.mp ha with ⟨rfl, rfl⟩ | ⟨tail, rfl, hx, htail⟩
    · exact hhead
    · exact hrest hx tail a htail

theorem exists_reached_cons {P : α → Prop} :
    (∃ before a, Reached pass (x :: l) before a ∧ P a) ↔
      P x ∨ pass x ∧ ∃ before a, Reached pass l before a ∧ P a := by
  constructor
  · rintro ⟨before, a, ha, hP⟩
    rcases reached_cons.mp ha with ⟨rfl, rfl⟩ | ⟨tail, rfl, hx, htail⟩
    · exact .inl hP
    · exact .inr ⟨hx, tail, a, htail, hP⟩
  · rintro (hP | ⟨hx, before, a, ha, hP⟩)
    · exact ⟨[], x, reached_cons.mpr (.inl ⟨rfl, rfl⟩), hP⟩
    · exact ⟨x :: before, a, reached_cons.mpr (.inr ⟨before, rfl, hx, ha⟩), hP⟩

end MipsEngines.Lib
