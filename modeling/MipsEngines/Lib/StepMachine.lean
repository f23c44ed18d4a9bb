import Mathlib.Data.List.Basic
import MipsEngines.Lib.Except

/-!
# `MipsEngines.Lib.StepMachine`: deterministic machines that may fault

A `StepMachine ε σ` takes one step at a time. It stops when `done` holds, and a
step may fail with an error of type `ε`. The module names no program. It gives:

* `Run M visited s t`: the run from `s` to `t`, with the list of the states it
  left on the way. Counting the visited states that satisfy a predicate says how
  often the machine did something.
* `Returns` and `Faults`: the two ways a run ends. `Run.det` and `FaultsAt.unique` make each
  unique, and `Returns.not_faults` makes them exclusive.
* `Run.invariant`: the induction rule for a property every step keeps.
* `Run.simulate`: a run of one machine is matched by a run of another when each
  step is.
* `exec`: the run as a function of a step count, for evaluation. `execUntil` is the run up
  to the first state with a property, and `execAll` checks a property of all its states.
* `exec_map`, `exec_map_of_invariant`, `exec_map_or_stuck`: two machines in lockstep, one of them
  a projection of the other.
-/

set_option autoImplicit false

namespace MipsEngines.Lib

variable {ε σ τ : Type}

/-- A deterministic machine: `step` is taken from states where `done` is
`false`, and may fail. -/
structure StepMachine (ε σ : Type) where
  done : σ → Bool
  step : σ → Except ε σ

namespace StepMachine

/-- The run from `s` to `t`. `visited` lists the states a step was taken from,
first to last. -/
inductive Run (M : StepMachine ε σ) : List σ → σ → σ → Prop
  | refl (s : σ) : Run M [] s s
  | head {s s' t : σ} {visited : List σ} (hdone : M.done s = false)
      (hstep : M.step s = .ok s') (hrest : Run M visited s' t) : Run M (s :: visited) s t

/-- Some run leads from `s` to `t`. -/
def Reaches (M : StepMachine ε σ) (s t : σ) : Prop := ∃ visited, M.Run visited s t

/-- The machine stops at `t` when started at `s`. -/
def Returns (M : StepMachine ε σ) (s t : σ) : Prop := M.Reaches s t ∧ M.done t = true

/-- The machine fails with `e` when started at `s`. -/
def Faults (M : StepMachine ε σ) (s : σ) (e : ε) : Prop :=
  ∃ t, M.Reaches s t ∧ M.done t = false ∧ M.step t = .error e

/-- The same, with the state it fails in. -/
structure FaultsAt (M : StepMachine ε σ) (s t : σ) (e : ε) : Prop where
  reaches : M.Reaches s t
  running : M.done t = false
  step : M.step t = .error e

variable {M : StepMachine ε σ}

theorem Run.single {s t : σ} (hdone : M.done s = false) (hstep : M.step s = .ok t) :
    M.Run [s] s t :=
  .head hdone hstep (.refl t)

theorem Run.append {vs ws : List σ} {s t u : σ} (h₁ : M.Run vs s t) (h₂ : M.Run ws t u) :
    M.Run (vs ++ ws) s u := by
  induction h₁ with
  | refl => exact h₂
  | head hdone hstep _ ih => exact .head hdone hstep (ih h₂)

/-- One more step at the end of a run. -/
theorem Run.snoc {vs : List σ} {s t u : σ} (h : M.Run vs s t) (hdone : M.done t = false)
    (hstep : M.step t = .ok u) : M.Run (vs ++ [t]) s u :=
  h.append (.single hdone hstep)

/-- Two runs from one state, the second one stopped: the first is an initial
part of the second. -/
theorem Run.prefix_of_done {vs ws : List σ} {s t u : σ} (h₁ : M.Run vs s t)
    (h₂ : M.Run ws s u) (hu : M.done u = true) : ∃ rest, M.Run rest t u ∧ ws = vs ++ rest := by
  induction h₁ generalizing ws with
  | refl s => exact ⟨ws, h₂, rfl⟩
  | head hdone hstep _ ih =>
      cases h₂ with
      | refl => rw [hdone] at hu; cases hu
      | head _ hstep' hrest =>
          rw [hstep] at hstep'
          cases hstep'
          -- Both runs take the step that the state determines.
          obtain ⟨rest, hrun, rfl⟩ := ih hrest
          exact ⟨rest, hrun, rfl⟩

/-- A step is taken from every visited state. -/
theorem Run.step_of_mem {vs : List σ} {s t : σ} (h : M.Run vs s t) :
    ∀ v ∈ vs, ∃ v', M.step v = .ok v' := by
  induction h with
  | refl => simp
  | head _ hstep _ ih => exact List.forall_mem_cons.mpr ⟨⟨_, hstep⟩, ih⟩

theorem Run.head_eq {vs : List σ} {s t v : σ} (h : M.Run vs s t) (hv : vs[0]? = some v) : v = s := by
  cases h with
  | refl => cases hv
  | head => cases hv; rfl

/-- A step leads from each visited state to the next one. -/
theorem Run.step_getElem {vs : List σ} {s t v v' : σ} (h : M.Run vs s t) {j : Nat}
    (hv : vs[j]? = some v) (hv' : vs[j + 1]? = some v') : M.step v = .ok v' := by
  induction h generalizing j with
  | refl => cases hv
  | head _ hstep hrest ih =>
      cases j with
      | zero =>
          cases hv
          rw [hrest.head_eq hv']
          exact hstep
      | succ j => exact ih hv hv'

/-- Of two runs from one state, one goes on where the other ends. -/
theorem Run.comparable {vs ws : List σ} {s t u : σ} (h₁ : M.Run vs s t) (h₂ : M.Run ws s u) :
    (∃ rest, M.Run rest t u ∧ ws = vs ++ rest) ∨ ∃ rest, M.Run rest u t ∧ vs = ws ++ rest := by
  induction h₁ generalizing ws with
  | refl s => exact .inl ⟨ws, h₂, rfl⟩
  | head hdone hstep hrun ih =>
      cases h₂ with
      | refl => exact .inr ⟨_, .head hdone hstep hrun, rfl⟩
      | head _ hstep' hrest =>
          rw [hstep] at hstep'
          cases hstep'
          rcases ih hrest with ⟨rest, hgoes, rfl⟩ | ⟨rest, hgoes, rfl⟩
          · exact .inl ⟨rest, hgoes, rfl⟩
          · exact .inr ⟨rest, hgoes, rfl⟩

/-- A stopped run has no further states. -/
theorem Run.eq_of_done {vs : List σ} {s t : σ} (h : M.Run vs s t) (hs : M.done s = true) :
    vs = [] ∧ t = s := by
  cases h with
  | refl => exact ⟨rfl, rfl⟩
  | head hdone => rw [hs] at hdone; cases hdone

/-- Two runs from one state to stopped states are one run. -/
theorem Run.det {vs ws : List σ} {s t u : σ} (h₁ : M.Run vs s t) (ht : M.done t = true)
    (h₂ : M.Run ws s u) (hu : M.done u = true) : vs = ws ∧ t = u := by
  obtain ⟨rest, hrest, rfl⟩ := h₁.prefix_of_done h₂ hu
  obtain ⟨rfl, rfl⟩ := hrest.eq_of_done ht
  exact ⟨(List.append_nil _).symm, rfl⟩

theorem Returns.unique {s t u : σ} (h₁ : M.Returns s t) (h₂ : M.Returns s u) : t = u := by
  obtain ⟨⟨_, hvs⟩, ht⟩ := h₁
  obtain ⟨⟨_, hws⟩, hu⟩ := h₂
  exact (hvs.det ht hws hu).2

/-- A machine that stops does not fail. -/
theorem Returns.not_faults {s t : σ} {e : ε} (h : M.Returns s t) : ¬ M.Faults s e := by
  rintro ⟨u, ⟨ws, hws⟩, hdone, herr⟩
  obtain ⟨⟨vs, hvs⟩, ht⟩ := h
  obtain ⟨rest, hrest, -⟩ := hws.prefix_of_done hvs ht
  cases hrest with
  -- The run to the failing state is a part of the other one, so that one goes through it.
  | refl => rw [hdone] at ht; cases ht
  | head _ hstep => rw [herr] at hstep; cases hstep

/-- Two runs from one state, the second one failed: the first is an initial part of the
second. -/
theorem Run.prefix_of_error {vs ws : List σ} {s t u : σ} {e : ε} (h₁ : M.Run vs s t)
    (h₂ : M.Run ws s u) (hu : M.step u = .error e) : ∃ rest, M.Run rest t u := by
  induction h₁ generalizing ws with
  | refl s => exact ⟨ws, h₂⟩
  | head _ hstep _ ih =>
      cases h₂ with
      | refl => rw [hu] at hstep; cases hstep
      | head _ hstep' hrest =>
          rw [hstep] at hstep'
          cases hstep'
          exact ih hrest

theorem FaultsAt.faults {s t : σ} {e : ε} (h : M.FaultsAt s t e) : M.Faults s e :=
  ⟨t, h.reaches, h.running, h.step⟩

theorem FaultsAt.of_reaches {s t u : σ} {e : ε} (h : M.FaultsAt t u e) (hs : M.Reaches s t) :
    M.FaultsAt s u e := by
  obtain ⟨vs, hvs⟩ := hs
  obtain ⟨ws, hws⟩ := h.reaches
  exact ⟨⟨_, hvs.append hws⟩, h.running, h.step⟩

/-- A machine fails in one state only, with one error. -/
theorem FaultsAt.unique {s t u : σ} {e e' : ε} (h : M.FaultsAt s t e) (h' : M.FaultsAt s u e') :
    t = u ∧ e = e' := by
  obtain ⟨vs, hvs⟩ := h.reaches
  obtain ⟨ws, hws⟩ := h'.reaches
  obtain ⟨rest, hrest⟩ := hvs.prefix_of_error hws h'.step
  cases hrest with
  | refl =>
      refine ⟨rfl, ?_⟩
      have heq := h.step.symm.trans h'.step
      cases heq
      rfl
  -- The first run would go on from a state whose step fails.
  | head _ hstep _ =>
      rw [h.step] at hstep
      cases hstep

/-- Stopping depends only on the states ahead: a run's first part can be cut. -/
theorem Returns.of_run {vs : List σ} {s t u : σ} (h : M.Run vs s t) :
    M.Returns s u ↔ M.Returns t u := by
  constructor
  · rintro ⟨⟨ws, hws⟩, hu⟩
    obtain ⟨rest, hrest, -⟩ := h.prefix_of_done hws hu
    exact ⟨⟨rest, hrest⟩, hu⟩
  · rintro ⟨⟨ws, hws⟩, hu⟩
    exact ⟨⟨_, h.append hws⟩, hu⟩

/-- The invariant rule: a property that every step keeps holds in every state of
a run. -/
theorem Run.invariant {I : σ → Prop} {vs : List σ} {s t : σ}
    (hstep : ∀ s s', I s → M.done s = false → M.step s = .ok s' → I s')
    (h : M.Run vs s t) (hs : I s) : I t ∧ ∀ v ∈ vs, I v := by
  induction h with
  | refl => exact ⟨hs, by simp⟩
  | @head s s' t visited hdone hok _ ih =>
      obtain ⟨ht, hvs⟩ := ih (hstep _ _ hs hdone hok)
      exact ⟨ht, List.forall_mem_cons.mpr ⟨hs, hvs⟩⟩

theorem Reaches.invariant {I : σ → Prop} {s t : σ}
    (hstep : ∀ s s', I s → M.done s = false → M.step s = .ok s' → I s')
    (h : M.Reaches s t) (hs : I s) : I t :=
  (h.choose_spec.invariant hstep hs).1

theorem Reaches.trans {s t u : σ} (h₁ : M.Reaches s t) (h₂ : M.Reaches t u) :
    M.Reaches s u :=
  ⟨_, h₁.choose_spec.append h₂.choose_spec⟩

theorem Reaches.refl (s : σ) : M.Reaches s s := ⟨[], .refl s⟩

/-- The simulation rule. `N` matches each step of `M` by a run whose visited
states contain exactly one of the states `p` counts, so after a run of `M` the
count in `N` is the number of steps of `M`. -/
theorem Run.simulate {N : StepMachine ε τ} {R : σ → τ → Prop} {p : τ → Bool}
    (hsim : ∀ s s' a, R s a → M.done s = false → M.step s = .ok s' →
      ∃ as a', N.Run as a a' ∧ as.countP p = 1 ∧ R s' a')
    {vs : List σ} {s t : σ} (h : M.Run vs s t) {a : τ} (ha : R s a) :
    ∃ as b, N.Run as a b ∧ as.countP p = vs.length ∧ R t b := by
  induction h generalizing a with
  | refl => exact ⟨[], a, .refl a, rfl, ha⟩
  | head hdone hstep _ ih =>
      -- The step is matched by a stretch with one counted state, the rest by induction.
      obtain ⟨as, a', has, hcount, ha'⟩ := hsim _ _ _ ha hdone hstep
      obtain ⟨bs, b, hbs, hcount', hb⟩ := ih ha'
      refine ⟨as ++ bs, b, has.append hbs, ?_, hb⟩
      rw [List.countP_append, hcount, hcount', List.length_cons, Nat.add_comm]

/-- At most `n` steps, as a function. -/
def exec (M : StepMachine ε σ) : Nat → σ → Except ε σ
  | 0, s => .ok s
  | n + 1, s => if M.done s then .ok s else M.step s >>= M.exec n

/-- The last step of an `exec`, taken apart. -/
theorem exec_succ (n : Nat) (s : σ) :
    M.exec (n + 1) s = M.exec n s >>= fun t => if M.done t then .ok t else M.step t := by
  induction n generalizing s with
  | zero =>
      show (if M.done s then _ else M.step s >>= M.exec 0) = (if M.done s then _ else _)
      split_ifs
      · rfl
      · cases M.step s <;> rfl
  | succ n ih =>
      rw [exec]
      cases hdone : M.done s with
      | true => simp [exec, hdone]
      | false =>
          rw [if_neg (by decide)]
          show _ = ((if M.done s then _ else M.step s >>= M.exec n) >>= _)
          rw [hdone, if_neg (by decide)]
          cases hstep : M.step s with
          | error e => rfl
          | ok s' => exact ih s'

theorem reaches_of_exec {n : Nat} {s t : σ} (h : M.exec n s = .ok t) : M.Reaches s t := by
  induction n generalizing s with
  | zero => cases h; exact .refl _
  | succ n ih =>
      rw [exec] at h
      cases hdone : M.done s with
      | true => rw [hdone, if_pos rfl] at h; cases h; exact .refl _
      | false =>
          rw [hdone, if_neg (by decide)] at h
          cases hstep : M.step s with
          | error e => rw [hstep] at h; cases h
          | ok s' =>
              rw [hstep] at h
              obtain ⟨vs, hvs⟩ := ih h
              exact ⟨_, .head hdone hstep hvs⟩

/-- An `exec` that ends in a stopped state is a return, to a state that passes the
check `p`. -/
theorem returns_of_exec {n : Nat} {s : σ} {p : σ → Bool}
    (h : okWith (fun t => M.done t && p t) (M.exec n s) = true) :
    ∃ t, M.Returns s t ∧ p t = true := by
  obtain ⟨t, ht, hp⟩ := okWith_eq_true.mp h
  obtain ⟨hdone, hp⟩ := Bool.and_eq_true_iff.mp hp
  exact ⟨t, ⟨reaches_of_exec ht, hdone⟩, hp⟩

/-- Every state of the next `n` steps passes `p`. -/
def execAll (M : StepMachine ε σ) (p : σ → Bool) : Nat → σ → Bool
  | 0, s => p s
  | n + 1, s => p s && (M.done s || match M.step s with
      | .error _ => true
      | .ok s' => M.execAll p n s')

theorem of_execAll {p : σ → Bool} {n : Nat} {s : σ} (h : M.execAll p n s = true) {k : Nat}
    (hk : k ≤ n) {t : σ} (ht : M.exec k s = .ok t) : p t = true := by
  induction n generalizing s k with
  | zero =>
      obtain rfl := Nat.le_zero.mp hk
      cases ht
      exact h
  | succ n ih =>
      obtain ⟨hs, hnext⟩ := Bool.and_eq_true_iff.mp h
      cases k with
      | zero =>
          cases ht
          exact hs
      | succ k =>
          rw [exec] at ht
          cases hdone : M.done s with
          | true =>
              rw [hdone, if_pos rfl] at ht
              cases ht
              exact hs
          | false =>
              rw [hdone, if_neg (by decide)] at ht
              obtain ⟨s', hstep, ht⟩ := bind_eq_ok.mp ht
              rw [hdone, hstep, Bool.false_or] at hnext
              exact ih hnext (Nat.le_of_succ_le_succ hk) ht

/-- An `exec` that fails is a fault of the machine. -/
theorem faults_of_exec {n : Nat} {s : σ} {e : ε} (h : M.exec n s = .error e) :
    M.Faults s e := by
  induction n generalizing s with
  | zero => cases h
  | succ n ih =>
      rw [exec] at h
      cases hdone : M.done s with
      | true => rw [hdone, if_pos rfl] at h; cases h
      | false =>
          rw [hdone, if_neg (by decide)] at h
          cases hstep : M.step s with
          | error e' =>
              rw [hstep] at h
              cases h
              exact ⟨s, .refl s, hdone, hstep⟩
          | ok s' =>
              rw [hstep] at h
              obtain ⟨t, ⟨vs, hvs⟩, ht, herr⟩ := ih h
              exact ⟨t, ⟨_, .head hdone hstep hvs⟩, ht, herr⟩

/-- Two machines in lockstep: `g` takes a state of `N` to one of `M`, and from every state
with `p` their steps are the same under `g`. As long as the run of `M` stays in `p`, the two
have the same outcome after every number of steps. -/
theorem exec_map {N : StepMachine ε τ} (g : τ → σ) {p : σ → Prop}
    (hdone : ∀ b, N.done b = M.done (g b))
    (hstep : ∀ b, M.done (g b) = false → p (g b) → (N.step b).map g = M.step (g b))
    (n : Nat) (b : τ)
    (hp : ∀ k < n, ∀ t, M.exec k (g b) = .ok t → M.done t = false → p t) :
    (N.exec n b).map g = M.exec n (g b) := by
  induction n generalizing b with
  | zero => rfl
  | succ n ih =>
      rw [exec, exec, hdone]
      cases hb : M.done (g b) with
      | true => rfl
      | false =>
          rw [if_neg (by decide), if_neg (by decide)]
          -- The first steps agree; from the next states on it is the induction hypothesis.
          have hfirst := hstep b hb (hp 0 (Nat.succ_pos n) _ rfl hb)
          cases hN : N.step b with
          | error e =>
              rw [hN] at hfirst
              rw [← hfirst]
              rfl
          | ok b' =>
              rw [hN] at hfirst
              rw [← hfirst]
              refine ih b' fun k hk t ht => hp (k + 1) (Nat.succ_lt_succ hk) t ?_
              rw [exec, hb, if_neg (by decide), ← hfirst]
              exact ht

/-- The same, where the steps agree as long as `N` keeps an invariant of its own, which it does
while its states satisfy `p`. -/
theorem exec_map_of_invariant {N : StepMachine ε τ} (g : τ → σ) {I p : τ → Prop}
    (hdone : ∀ b, N.done b = M.done (g b))
    (hstep : ∀ b, I b → N.done b = false → (N.step b).map g = M.step (g b))
    (hkeep : ∀ b b', I b → N.done b = false → N.step b = .ok b' → p b' → I b') (n : Nat) {b : τ}
    (hb : I b) (hp : ∀ k ≤ n, ∀ t, N.exec k b = .ok t → p t) :
    (N.exec n b).map g = M.exec n (g b) := by
  induction n generalizing b with
  | zero => rfl
  | succ n ih =>
      rw [exec, exec, ← hdone]
      cases hb' : N.done b with
      | true => rfl
      | false =>
          rw [if_neg (by decide), if_neg (by decide), ← hstep b hb hb']
          cases hN : N.step b with
          | error e => rfl
          | ok b' =>
              -- What `b` comes to in one step more, `b'` comes to.
              have hnext : ∀ k, N.exec (k + 1) b = N.exec k b' := fun k => by
                rw [exec, hb', if_neg (by decide), hN]
                rfl
              have hb₁ := hkeep b b' hb hb' hN (hp 1 (Nat.le_add_left 1 n) b' (hnext 0))
              exact ih hb₁ fun k hk t ht => hp (k + 1) (Nat.succ_le_succ hk) t ((hnext k).trans ht)

/-- The same up to a state that is `stuck`, where both machines fail, each in its own way. -/
theorem exec_map_or_stuck {N : StepMachine ε τ} (g : τ → σ) {I stuck : τ → Prop} {e e' : ε}
    (hdone : ∀ b, N.done b = M.done (g b))
    (hstep : ∀ b, I b → N.done b = false → (N.step b).map g = M.step (g b) ∨
      N.step b = .error e ∧ M.step (g b) = .error e' ∧ stuck b)
    (hkeep : ∀ b b', I b → N.done b = false → N.step b = .ok b' → I b') (n : Nat) {b : τ}
    (hb : I b) : (N.exec n b).map g = M.exec n (g b) ∨
      N.exec n b = .error e ∧ M.exec n (g b) = .error e' ∧ ∃ t, N.Reaches b t ∧ stuck t := by
  induction n generalizing b with
  | zero => exact .inl rfl
  | succ n ih =>
      rw [exec, exec, ← hdone]
      cases hb' : N.done b with
      | true => exact .inl rfl
      | false =>
          rw [if_neg (by decide), if_neg (by decide)]
          rcases hstep b hb hb' with hmap | ⟨hN, hM, hstuck⟩
          · rw [← hmap]
            cases hN : N.step b with
            | error e => exact .inl rfl
            | ok b' =>
                rcases ih (hkeep b b' hb hb' hN) with hrest | ⟨hN', hM', t, ⟨vs, hvs⟩, hstuck⟩
                · exact .inl hrest
                · exact .inr ⟨hN', hM', t, ⟨_, .head hb' hN hvs⟩, hstuck⟩
          · rw [hN, hM]
            exact .inr ⟨rfl, rfl, b, .refl b, hstuck⟩

/-- At most `n` steps, none of them from a state that passes `p`. -/
def execUntil (M : StepMachine ε σ) (p : σ → Bool) : Nat → σ → Except ε σ
  | 0, s => .ok s
  | n + 1, s => if p s || M.done s then .ok s else M.step s >>= M.execUntil p n

theorem run_of_execUntil {p : σ → Bool} {n : Nat} {s t : σ} (h : M.execUntil p n s = .ok t) :
    ∃ visited, M.Run visited s t ∧ ∀ v ∈ visited, p v = false := by
  induction n generalizing s with
  | zero => cases h; exact ⟨[], .refl _, by simp⟩
  | succ n ih =>
      rw [execUntil] at h
      cases hstop : p s || M.done s with
      | true => rw [hstop, if_pos rfl] at h; cases h; exact ⟨[], .refl _, by simp⟩
      | false =>
          rw [hstop, if_neg (by decide)] at h
          obtain ⟨hp, hdone⟩ := Bool.or_eq_false_iff.mp hstop
          obtain ⟨s', hstep, h⟩ := bind_eq_ok.mp h
          obtain ⟨vs, hvs, hall⟩ := ih h
          exact ⟨_, .head hdone hstep hvs, List.forall_mem_cons.mpr ⟨hp, hall⟩⟩

end StepMachine

end MipsEngines.Lib
