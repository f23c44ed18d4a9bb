import MipsEngines.Lib.StepMachine

/-!
# `MipsEngines.Lib.Logged`: machines that put something out

A machine over `σ × List α` logs a machine over `σ` if it takes the same steps and each of
them appends what `emit` says of the state it leaves (`Logs`). So its runs are the runs of
the other machine, and what they put out is read off the visited states (`Logs.run`,
`Logs.of_run`). `Run.through` is the rule behind the first, for two machines whose
states are not the same but correspond. A log only grows, so its length says where in a run it
was (`Run.output_eq`).
-/

set_option autoImplicit false

namespace MipsEngines.Lib.StepMachine

variable {ε σ τ α : Type}

/-- `N` takes the steps of `M` and appends what `emit` says of the state each is taken from. -/
structure Logs (N : StepMachine ε (σ × List α)) (M : StepMachine ε σ) (emit : σ → List α) :
    Prop where
  done : ∀ s out, N.done (s, out) = M.done s
  step : ∀ s out, N.step (s, out) = (M.step s).map fun t => (t, out ++ emit s)

/-- A run is followed through `g`: every step it takes is one of `N` between the states that
correspond, which puts out what `emit` says. -/
theorem Run.through {M : StepMachine ε σ} {N : StepMachine ε (τ × List α)} (g : σ → τ)
    (emit : σ → List α) {vs : List σ} {s t : σ} (h : M.Run vs s t)
    (hsim : ∀ v ∈ vs, ∀ v' out, M.done v = false → M.step v = .ok v' →
      N.done (g v, out) = false ∧ N.step (g v, out) = .ok (g v', out ++ emit v))
    (out : List α) :
    ∃ ws, N.Run ws (g s, out) (g t, out ++ vs.flatMap emit) ∧ ws.map Prod.fst = vs.map g := by
  induction h generalizing out with
  | refl s => exact ⟨[], by simpa using Run.refl (M := N) (g s, out), rfl⟩
  | @head s s' t visited hdone hstep _ ih =>
      have hfirst := hsim s List.mem_cons_self s' out hdone hstep
      -- What this step puts out comes ahead of the rest.
      have hrest := ih (fun v hv => hsim v (List.mem_cons_of_mem s hv)) (out ++ emit s)
      obtain ⟨ws, hws, hmap⟩ := hrest
      rw [List.append_assoc] at hws
      exact ⟨(g s, out) :: ws, .head hfirst.1 hfirst.2 hws, by simp [hmap]⟩

/-- Every step appends to what has been put out. -/
def Appends (N : StepMachine ε (σ × List α)) : Prop := ∀ p q, N.step p = .ok q → p.2 <+: q.2

theorem Run.output_prefix {N : StepMachine ε (σ × List α)} (happends : N.Appends)
    {ws : List (σ × List α)} {p q : σ × List α} (h : N.Run ws p q) : p.2 <+: q.2 := by
  induction h with
  | refl p => exact List.prefix_refl p.2
  | head _ hstep _ ih => exact (happends _ _ hstep).trans ih

/-- Two runs from one state that put out as much put out the same. -/
theorem Run.output_eq {N : StepMachine ε (σ × List α)} (happends : N.Appends)
    {vs ws : List (σ × List α)} {p q r : σ × List α} (h₁ : N.Run vs p q) (h₂ : N.Run ws p r)
    (hlength : q.2.length = r.2.length) : q.2 = r.2 := by
  rcases h₁.comparable h₂ with ⟨rest, hrest, -⟩ | ⟨rest, hrest, -⟩
  · exact (hrest.output_prefix happends).eq_of_length hlength
  · exact ((hrest.output_prefix happends).eq_of_length hlength.symm).symm

namespace Logs

variable {N : StepMachine ε (σ × List α)} {M : StepMachine ε σ} {emit : σ → List α}

theorem run (h : Logs N M emit) {vs : List σ} {s t : σ} (hrun : M.Run vs s t)
    (out : List α) :
    ∃ ws, N.Run ws (s, out) (t, out ++ vs.flatMap emit) ∧ ws.map Prod.fst = vs := by
  have hthrough := hrun.through (N := N) id emit (fun v _ v' out hdone hstep => by
    refine ⟨(h.done v out).trans hdone, ?_⟩
    rw [id, h.step, hstep]
    rfl) out
  simpa using hthrough

theorem of_run (h : Logs N M emit) {ws : List (σ × List α)} {p q : σ × List α}
    (hrun : N.Run ws p q) :
    M.Run (ws.map Prod.fst) p.1 q.1 ∧ q.2 = p.2 ++ (ws.map Prod.fst).flatMap emit := by
  induction hrun with
  | refl p => exact ⟨.refl _, by simp⟩
  | @head p p' q visited hdone hstep _ ih =>
      rw [h.done] at hdone
      rw [h.step] at hstep
      cases ht : M.step p.1 with
      | error e => rw [ht] at hstep; cases hstep
      | ok t =>
          rw [ht] at hstep
          cases hstep
          exact ⟨.head hdone ht ih.1, by simp [ih.2]⟩

end Logs

end MipsEngines.Lib.StepMachine
