import MipsEngines.Lib.Logged
import MipsEngines.Model.Builds
import MipsEngines.Proofs.ComputedGoto
import MipsEngines.Proofs.EveryEngine
import MipsEngines.Proofs.TailCall

/-!
# `MipsEngines.Proofs.Builds`: an engine with output is the engine

Whatever an `X` puts out around an implementation, the engine takes the steps of the plain
build (`interpreterWith_logs`). So a run of such a build is a run of the plain one, and its
output is that of the handlers the run goes through, in order (`handled`).

The goto engine and the tail-call engine go through the handlers of the switch engine, on the
same machines (`goto_handled`, `tail_handled`).
-/

set_option autoImplicit false

namespace MipsEngines

open Lib StepMachine

variable {α : Type} (out : Instrumentation α) (host : Host)

/-- What is put out around the handler `w` when it is called at `s`. With `late` the handler
ends with `INCREMENT_PC`. -/
def Instrumentation.emitted (late : Bool) (w : U32 × Instr) (s : Machine) : List α :=
  match execute host w.2 w.1 s with
  | .error _ => []
  | .ok t =>
      out.before w.2 w.1 s ++ out.during w.2 s ++ out.after w.2 w.1 t
        ++ if late then out.late w.2 w.1 (incrementPc t) else []

/-- The handlers of an engine end with `INCREMENT_PC`. -/
def Engine.increments : Engine → Bool
  | .blocked => false
  | _ => true

/-- The handler that the next step runs, with the machine it is called at. -/
def Engine.handling (engine : Engine) (st : engine.State) : Option ((U32 × Instr) × Machine) :=
  (engine.executing st).map fun w => (w, engine.machine st)

/-- The handlers of a run, in order. -/
def Engine.handled (engine : Engine) (visited : List engine.State) :
    List ((U32 × Instr) × Machine) :=
  visited.filterMap engine.handling

/-- What an engine puts out at the step from `st`. -/
def Engine.emitted (engine : Engine) (st : engine.State) : List α :=
  ((engine.handling st).map fun h => out.emitted host engine.increments h.1 h.2).getD []

theorem flatMap_emitted (engine : Engine) (visited : List engine.State) :
    visited.flatMap (engine.emitted out host)
      = (engine.handled visited).flatMap fun h => out.emitted host engine.increments h.1 h.2 := by
  induction visited with
  | nil => rfl
  | cons st visited ih =>
      rw [List.flatMap_cons, ih, Engine.emitted]
      simp only [Engine.handled, List.filterMap_cons]
      cases engine.handling st with
      | none => rfl
      | some h => rfl

/-! ### The steps -/

section Steps

variable {out host}

theorem executeWith_eq (i : Instr) (cir : U32) (s : Machine) :
    executeWith out host i cir s
      = (execute host i cir s).map fun t => (t, out.emitted host false (cir, i) s) := by
  unfold executeWith Instrumentation.emitted
  cases execute host i cir s with
  | error e => rfl
  | ok t => simp

theorem executeIncrementWith_eq (i : Instr) (cir : U32) (s : Machine) :
    executeIncrementWith out host i cir s
      = (execute host i cir s).map fun t =>
          (incrementPc t, out.emitted host true (cir, i) s) := by
  unfold executeIncrementWith executeWith Instrumentation.emitted
  cases execute host i cir s with
  | error e => rfl
  | ok t => rfl

theorem switchStepWith_eq (s : Machine) (printed : List α) :
    switchStepWith out host (s, printed)
      = (switchStep host s).map fun t => (t, printed ++ Engine.switch.emitted out host s) := by
  simp only [switchStepWith, switchStep, Engine.emitted, Engine.handling, Engine.executing,
    currentWord, Engine.machine]
  cases fetch s with
  | error e => rfl
  | ok cir =>
      simp only [ok_bind]
      cases switchDispatch cir with
      | none => rfl
      | some i =>
          simp only [executeIncrementWith_eq]
          cases execute host i cir s with
          | error e => rfl
          | ok t => rfl

theorem gotoStepWith_eq (g : GotoState) (printed : List α) :
    gotoStepWith out host (g, printed)
      = (gotoStep host g).map fun t => (t, printed ++ Engine.computedGoto.emitted out host g) := by
  obtain ⟨control, s⟩ := g
  -- Only at the label of an instruction is there something to put out.
  have hnone : ∀ g : GotoState, Engine.computedGoto.handling g = none →
      (gotoStep host g).map (fun t => (t, printed))
        = (gotoStep host g).map fun t => (t, printed ++ Engine.computedGoto.emitted out host g) := by
    intro g hg
    simp [Engine.emitted, hg]
  cases control with
  | dispatch => exact hnone ⟨.dispatch, s⟩ rfl
  | returned => exact hnone ⟨.returned, s⟩ rfl
  | label l cir =>
      cases l with
      | secondary => exact hnone ⟨.label .secondary cir, s⟩ rfl
      | branch => exact hnone ⟨.label .branch cir, s⟩ rfl
      | instr i =>
          simp only [gotoStepWith, gotoStep, executeIncrementWith_eq]
          cases execute host i cir s with
          | error e => rfl
          | ok t => rfl

theorem tailStepWith_eq (c : TailState) (printed : List α) :
    tailStepWith out host (c, printed)
      = (tailStep host c).map fun t => (t, printed ++ Engine.tailCall.emitted out host c) := by
  obtain ⟨control, s⟩ := c
  have hnone : ∀ c : TailState, Engine.tailCall.handling c = none →
      (tailStep host c).map (fun t => (t, printed))
        = (tailStep host c).map fun t => (t, printed ++ Engine.tailCall.emitted out host c) := by
    intro c hc
    simp [Engine.emitted, hc]
  cases control with
  | entry => exact hnone ⟨.entry, s⟩ rfl
  | returned => exact hnone ⟨.returned, s⟩ rfl
  | call l cir =>
      cases l with
      | secondary => exact hnone ⟨.call .secondary cir, s⟩ rfl
      | branch => exact hnone ⟨.call .branch cir, s⟩ rfl
      | instr i =>
          -- A handler of a halted machine returns before it puts anything out.
          simp only [tailStepWith, tailStep, executeIncrementWith_eq, Engine.emitted,
            Engine.handling, Engine.executing]
          cases hhalt : s.mips.halted with
          | true => simp
          | false =>
              cases execute host i cir s with
              | error e => rfl
              | ok t =>
                  show (tailDispatch (incrementPc t) >>= _) = (tailDispatch (incrementPc t)).map _
                  cases tailDispatch (incrementPc t) with
                  | error e => rfl
                  | ok c => rfl

theorem blockedStepWith_eq (e : BlockedState) (printed : List α) :
    blockedStepWith out host (e, printed)
      = (blockedStep host e).map fun t => (t, printed ++ Engine.blocked.emitted out host e) := by
  obtain ⟨control, blocks, previous, s⟩ := e
  have hnone : ∀ e : BlockedState, Engine.blocked.handling e = none →
      (blockedStep host e).map (fun t => (t, printed))
        = (blockedStep host e).map fun t => (t, printed ++ Engine.blocked.emitted out host e) := by
    intro e he
    simp [Engine.emitted, he]
  cases control with
  | outer => exact hnone ⟨.outer, blocks, previous, s⟩ rfl
  | inner current => exact hnone ⟨.inner current, blocks, previous, s⟩ rfl
  | test current k => exact hnone ⟨.test current k, blocks, previous, s⟩ rfl
  | leave current => exact hnone ⟨.leave current, blocks, previous, s⟩ rfl
  | returned => exact hnone ⟨.returned, blocks, previous, s⟩ rfl
  | unrolled current k case =>
      simp only [blockedStepWith, blockedStep, Engine.emitted, Engine.handling, Engine.executing,
        derefBlock, derefOp]
      cases blocks[current]? with
      | none => rfl
      | some b =>
          simp only [ok_bind, Option.bind_eq_bind, Option.bind_some]
          cases b.ops[k]? with
          | none => rfl
          | some op =>
              obtain ⟨cir, handler⟩ := op
              cases handler with
              | none => rfl
              | some i =>
                  simp only [ok_bind, executeWith_eq]
                  cases execute host i cir s with
                  | error e => rfl
                  | ok t => rfl

end Steps

/-- An engine with output takes the steps of the plain engine. -/
theorem interpreterWith_logs (engine : Engine) :
    Logs (engine.interpreterWith out host) (engine.interpreter host)
      (engine.emitted out host) := by
  cases engine with
  | switch => exact ⟨fun _ _ => rfl, switchStepWith_eq⟩
  | computedGoto => exact ⟨fun _ _ => rfl, gotoStepWith_eq⟩
  | tailCall => exact ⟨fun _ _ => rfl, tailStepWith_eq⟩
  | blocked => exact ⟨fun _ _ => rfl, blockedStepWith_eq⟩

/-! ### The handlers of a run -/

variable {host}

/-- The handler of a step that is taken does not fail. -/
theorem execute_of_handling {engine : Engine} {st st' : engine.State}
    {h : (U32 × Instr) × Machine} (hstep : (engine.interpreter host).step st = .ok st')
    (hh : engine.handling st = some h) : ∃ t, execute host h.1.2 h.1.1 h.2 = .ok t := by
  have hthen := engine_step engine hstep
  unfold Engine.handling at hh
  cases hw : engine.executing st with
  | none => rw [hw] at hh; cases hh
  | some w =>
      rw [hw] at hh hthen
      cases hh
      obtain ⟨t, -, ht, -⟩ := hthen
      exact ⟨t, ht⟩

theorem execute_of_handled {engine : Engine} {visited : List engine.State}
    {st st' : engine.State} (hrun : (engine.interpreter host).Run visited st st') :
    ∀ h ∈ engine.handled visited, ∃ t, execute host h.1.2 h.1.1 h.2 = .ok t := by
  intro h hmem
  obtain ⟨v, hv, hh⟩ := List.mem_filterMap.mp hmem
  obtain ⟨v', hstep⟩ := hrun.step_of_mem v hv
  exact execute_of_handling hstep hh

theorem handled_append (engine : Engine) (vs ws : List engine.State) :
    engine.handled (vs ++ ws) = engine.handled vs ++ engine.handled ws :=
  List.filterMap_append

/-- A machine that takes a step of the switch engine has its handler. -/
theorem switch_handled {s s' : Machine} (h : switchStep host s = .ok s') :
    ∃ w, currentWord s = some w ∧ Engine.switch.handled [s] = [(w, s)] := by
  obtain ⟨w, -, hw, -, -⟩ := switchStep_currentWord h
  refine ⟨w, hw, ?_⟩
  simp [Engine.handled, Engine.handling, Engine.executing, hw, Engine.machine]

theorem handled_eq_nil_of_atInstr {ws : List GotoState} (h : ws.countP GotoState.atInstr = 0) :
    Engine.computedGoto.handled ws = [] := by
  refine List.filterMap_eq_nil_iff.mpr fun g hg => ?_
  have hno := List.countP_eq_zero.mp h g hg
  obtain ⟨control, s⟩ := g
  cases control with
  | dispatch => rfl
  | returned => rfl
  | label l cir =>
      cases l with
      | secondary => rfl
      | branch => rfl
      | instr i => exact absurd rfl hno

/-- The goto engine goes through the handlers of the switch engine. -/
theorem goto_handled {visited : List Machine} {s t : Machine}
    (h : (interpreterSwitch host).Run visited s t) :
    ∃ ws, (interpreterComputedGoto host).Run ws ⟨.dispatch, s⟩ ⟨.dispatch, t⟩ ∧
      Engine.computedGoto.handled ws = Engine.switch.handled visited := by
  induction h with
  | refl s => exact ⟨[], .refl _, rfl⟩
  | @head s s' t visited hhalt hround _ ih =>
      obtain ⟨vs, hvs, hhandled⟩ := ih
      obtain ⟨cir, i, u, hcir, hi, hu, rfl⟩ := switchStep_eq_ok.mp hround
      have hw : currentWord s = some (cir, i) := currentWord_eq_some.mpr ⟨hcir, hi⟩
      -- No handler on the way to the label, one at it, and the rest.
      obtain ⟨ws, hws, hcount⟩ := goto_to_label host hhalt hcir hi
      have hat : (interpreterComputedGoto host).step ⟨.label (.instr i) cir, s⟩
          = .ok ⟨.dispatch, incrementPc u⟩ := by
        show (execute host i cir s >>= _) = _
        rw [hu]
        rfl
      refine ⟨ws ++ ⟨.label (.instr i) cir, s⟩ :: vs, hws.append (.head rfl hat hvs), ?_⟩
      rw [handled_append, handled_eq_nil_of_atInstr hcount, List.nil_append]
      simp only [Engine.handled, List.filterMap_cons, Engine.handling, Engine.executing, hw,
        Option.map_some, Engine.machine] at hhandled ⊢
      rw [hhandled]

/-- From the dispatch of a supported word to its handler: the handlers gone through are
that of the state the word is dispatched in. -/
theorem tail_to_handler_handled {c : TailState} {s : Machine} {w : U32 × Instr}
    (hdone : (interpreterTailCall host).done c = false)
    (hstep : (interpreterTailCall host).step c = tailDispatch s) (hw : currentWord s = some w) :
    ∃ ws, (interpreterTailCall host).Run ws c ⟨.call (.instr w.2) w.1, s⟩ ∧
      Engine.tailCall.handled ws = Engine.tailCall.handled [c] := by
  obtain ⟨cir, i⟩ := w
  obtain ⟨hcir, hi⟩ := currentWord_eq_some.mp hw
  obtain ⟨l, hl, hfollow⟩ := bind_eq_ok.mp (tableDispatch_eq_ok_iff.mpr hi)
  have hcall : (interpreterTailCall host).step c = .ok ⟨.call l cir, s⟩ := by
    rw [hstep, tailDispatch, hcir, ok_bind, hl]
    rfl
  cases l with
  | instr _ =>
      cases hfollow
      exact ⟨[c], .single hdone hcall, rfl⟩
  | secondary =>
      have hjump : jumpThrough secondary (fnField cir) = .ok i := hfollow
      have hsecond : (interpreterTailCall host).step ⟨.call .secondary cir, s⟩
          = .ok ⟨.call (.instr i) cir, s⟩ := by
        show (jumpThrough secondary (fnField cir) >>= _) = _
        rw [hjump]
        rfl
      refine ⟨[c, ⟨.call .secondary cir, s⟩], .head hdone hcall (.single rfl hsecond), ?_⟩
      exact (handled_append .tailCall [c] _).trans (List.append_nil _)
  | branch =>
      have hjump : jumpThrough branch (rtField cir) = .ok i := hfollow
      have hsecond : (interpreterTailCall host).step ⟨.call .branch cir, s⟩
          = .ok ⟨.call (.instr i) cir, s⟩ := by
        show (jumpThrough branch (rtField cir) >>= _) = _
        rw [hjump]
        rfl
      refine ⟨[c, ⟨.call .branch cir, s⟩], .head hdone hcall (.single rfl hsecond), ?_⟩
      exact (handled_append .tailCall [c] _).trans (List.append_nil _)

/-- The tail-call engine goes through the handlers of the switch engine, up to the handler of
the word the run ends at. -/
theorem tail_handled {m : Nat → Machine} {n : Nat} (h : SwitchRun host m n) {w : U32 × Instr}
    (hw : currentWord (m n) = some w) :
    ∃ ws, (interpreterTailCall host).Run ws ⟨.entry, m 0⟩ ⟨.call (.instr w.2) w.1, m n⟩ ∧
      Engine.tailCall.handled ws = Engine.switch.handled ((List.range n).map m) := by
  induction n generalizing w with
  | zero =>
      obtain ⟨ws, hws, hhandled⟩ := tail_to_handler_handled (c := ⟨.entry, m 0⟩) rfl rfl hw
      exact ⟨ws, hws, hhandled⟩
  | succ n ih =>
      have hbefore : SwitchRun host m n :=
        ⟨fun i hi => h.running i (by omega), fun i hi => h.step i (by omega)⟩
      have hhalt := h.running n (Nat.lt_succ_self n)
      obtain ⟨v, u, hv, hu, hnext⟩ := switchStep_currentWord (h.step n (Nat.lt_succ_self n))
      obtain ⟨ws, hws, hhandled⟩ := ih hbefore hv
      -- The handler of the last word of the shorter run runs it and dispatches `w`.
      have hat : (interpreterTailCall host).step ⟨.call (.instr v.2) v.1, m n⟩
          = tailDispatch (m (n + 1)) := by
        show (if (m n).mips.halted = true then _ else _) = _
        rw [hhalt, if_neg (by decide), hu, hnext]
        rfl
      obtain ⟨vs, hvs, hone⟩ := tail_to_handler_handled rfl hat hw
      refine ⟨ws ++ vs, hws.append hvs, ?_⟩
      rw [handled_append, hhandled, hone, List.range_succ, List.map_append, handled_append]
      simp [Engine.handled, Engine.handling, Engine.executing, Engine.machine, hhalt, hv]

end MipsEngines
