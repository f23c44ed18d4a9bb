import Mathlib.Logic.Basic

/-!
# `MipsEngines.Lib.Except`: computations that may fail, taken apart

Small lemmas about `Except` in a `do` block: what a bind that succeeds went
through, and how a map moves over a bind.
-/

set_option autoImplicit false

namespace MipsEngines.Lib

variable {ε α β γ : Type}

@[simp] theorem ok_bind (a : α) (f : α → Except ε β) : (Except.ok a >>= f) = f a := rfl

@[simp] theorem error_bind (e : ε) (f : α → Except ε β) :
    ((Except.error e : Except ε α) >>= f) = .error e := rfl

@[simp] theorem pure_eq_ok (a : α) : (pure a : Except ε α) = .ok a := rfl

@[simp] theorem map_ok (f : α → β) (a : α) : (Except.ok a : Except ε α).map f = .ok (f a) := rfl

@[simp] theorem map_error (f : α → β) (e : ε) :
    (Except.error e : Except ε α).map f = .error e := rfl

/-- A bind that succeeds: its first part did, and so did what followed. -/
theorem bind_eq_ok {x : Except ε α} {f : α → Except ε β} {b : β} :
    (x >>= f) = .ok b ↔ ∃ a, x = .ok a ∧ f a = .ok b := by
  cases x with
  | error e =>
      constructor
      · intro h; cases h
      · rintro ⟨a, h, -⟩; cases h
  | ok a =>
      constructor
      · intro h; exact ⟨a, rfl, h⟩
      · rintro ⟨a', h, hb⟩; cases h; exact hb

theorem map_eq_ok {f : α → β} {x : Except ε α} {b : β} :
    x.map f = .ok b ↔ ∃ a, x = .ok a ∧ f a = b := by
  cases x <;> simp

/-- A bind that fails: one of its parts did. -/
theorem bind_eq_error {x : Except ε α} {f : α → Except ε β} {e : ε} :
    (x >>= f) = .error e ↔ x = .error e ∨ ∃ a, x = .ok a ∧ f a = .error e := by
  cases x with
  | error e' => simp
  | ok a => simp

/-- The computation succeeds with a value that passes `p`, as a check. -/
def okWith (p : α → Bool) : Except ε α → Bool
  | .ok a => p a
  | .error _ => false

theorem okWith_eq_true {p : α → Bool} {x : Except ε α} :
    okWith p x = true ↔ ∃ a, x = .ok a ∧ p a = true := by
  cases x <;> simp [okWith]

/-- The computation fails with an error that passes `p`, as a check. -/
def errorWith (p : ε → Bool) : Except ε α → Bool
  | .ok _ => false
  | .error e => p e

theorem errorWith_eq_true {p : ε → Bool} {x : Except ε α} :
    errorWith p x = true ↔ ∃ e, x = .error e ∧ p e = true := by
  cases x <;> simp [errorWith]

/-- A map after a bind is a bind of maps. -/
theorem map_bind (g : β → γ) (x : Except ε α) (f : α → Except ε β) :
    (x >>= f).map g = x >>= fun a => (f a).map g := by
  cases x <;> rfl

/-- A map followed by a bind is one bind. -/
theorem bind_map (g : α → β) (x : Except ε α) (f : β → Except ε γ) :
    (x.map g >>= f) = x >>= fun a => f (g a) := by
  cases x <;> rfl

/-- Two binds of one computation agree when what follows does. -/
theorem bind_congr {x : Except ε α} {f g : α → Except ε β} (h : ∀ a, x = .ok a → f a = g a) :
    (x >>= f) = (x >>= g) := by
  cases x with
  | error e => rfl
  | ok a => exact h a rfl

/-! ### Two computations in agreement -/

/-- Both fail with one error, or both succeed, with values that are related. -/
inductive Agree (R : α → β → Prop) : Except ε α → Except ε β → Prop
  | ok {a : α} {b : β} (related : R a b) : Agree R (.ok a) (.ok b)
  | error (e : ε) : Agree R (.error e) (.error e)

section Agree

variable {δ : Type} {R : α → β → Prop} {S : γ → δ → Prop} {x : Except ε α} {y : Except ε β}

theorem Agree.refl (x : Except ε α) : Agree (fun a b => a = b) x x := by
  cases x with
  | error e => exact .error e
  | ok a => exact .ok rfl

/-- The values related are those of the computations. -/
theorem Agree.values (h : Agree R x y) : Agree (fun a b => R a b ∧ y = .ok b) x y := by
  cases h with
  | ok related => exact .ok ⟨related, rfl⟩
  | error e => exact .error e

theorem Agree.imp (h : Agree R x y) {R' : α → β → Prop} (hR : ∀ a b, R a b → R' a b) :
    Agree R' x y := by
  cases h with
  | ok related => exact .ok (hR _ _ related)
  | error e => exact .error e

/-- Two binds agree when their first parts do, and what follows does on related values. -/
theorem Agree.bind (h : Agree R x y) {f : α → Except ε γ} {g : β → Except ε δ}
    (hf : ∀ a b, R a b → Agree S (f a) (g b)) : Agree S (x >>= f) (y >>= g) := by
  cases h with
  | ok related => exact hf _ _ related
  | error e => exact .error e

/-- Two folds over one list agree when their steps do. -/
theorem Agree.foldlM {f : α → γ → Except ε α} {g : β → γ → Except ε β} {a : α} {b : β}
    {cs : List γ} (hab : R a b) (hf : ∀ a b, R a b → ∀ c ∈ cs, Agree R (f a c) (g b c)) :
    Agree R (cs.foldlM f a) (cs.foldlM g b) := by
  induction cs generalizing a b with
  | nil => exact .ok hab
  | cons c cs ih =>
      rw [List.foldlM_cons, List.foldlM_cons]
      exact (hf a b hab c List.mem_cons_self).bind fun a' b' hab' =>
        ih hab' fun a b hab d hd => hf a b hab d (List.mem_cons_of_mem c hd)

theorem Agree.map_eq {g : α → β} (h : Agree R x y) (hg : ∀ a b, R a b → g a = b) : x.map g = y := by
  cases h with
  | ok related => exact congrArg Except.ok (hg _ _ related)
  | error e => rfl

theorem Agree.left (h : Agree R x y) {a : α} (hx : x = .ok a) : ∃ b, y = .ok b ∧ R a b := by
  subst hx
  cases h with
  | ok related => exact ⟨_, rfl, related⟩

end Agree

end MipsEngines.Lib
