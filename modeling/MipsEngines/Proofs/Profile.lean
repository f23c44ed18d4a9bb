import Mathlib.Algebra.Ring.Nat
import MipsEngines.Proofs.BlockSimulation
import MipsEngines.Proofs.Builds

/-!
# `MipsEngines.Proofs.Profile`: what the profile build measures

In the `__PROFILE__` build a run calls `ENTER_PROCESSING` and `EXIT_PROCESSING` once for each
guest instruction it executes, in turn, and calls the interpreter as the plain build does.

The Pin tool sees these calls among the instructions of the host. `profile_counts` takes any
process that makes the calls of a run: it falls into windows, one for each guest instruction.
The processing count is the number of host instructions inside them, and the dispatching count
that of the others between the two hooks of `main`. `profile_windows_alike` says that
the engines open the same number of windows for the same guest run.
-/

set_option autoImplicit false

namespace MipsEngines

open Lib StepMachine

/-! ### The events of a process -/

def PinEvent.hook : PinEvent → Option Hook
  | .instruction => none
  | .call hook => some hook

/-- The hooks among the events. -/
def hooksOf (events : List PinEvent) : List Hook := events.filterMap PinEvent.hook

/-- `n` instructions of the host, with no hook among them. -/
def hostInstructions (n : Nat) : List PinEvent := List.replicate n .instruction

/-- A window of `w.1` instructions, and `w.2` instructions up to the next one. -/
def window (w : Nat × Nat) : List PinEvent :=
  .call .enterProcessing :: (hostInstructions w.1 ++ .call .exitProcessing :: hostInstructions w.2)

/-- A process with these windows: `before` instructions ahead of the interpreter, `gap` in it
ahead of the first window, and `after` behind it. -/
def mainEvents (before gap : Nat) (windows : List (Nat × Nat)) (after : Nat) : List PinEvent :=
  hostInstructions before ++ .call .enterDispatching
    :: (hostInstructions gap ++ windows.flatMap window ++ .call .exitDispatching :: hostInstructions after)

/-- The hooks of `n` guest instructions. -/
def windowHooks (n : Nat) : List Hook :=
  (List.replicate n [Hook.enterProcessing, .exitProcessing]).flatten

theorem windowHooks_succ (n : Nat) :
    windowHooks (n + 1) = .enterProcessing :: .exitProcessing :: windowHooks n := rfl

/-- Up to the first hook there are instructions only. -/
theorem split_hook {events : List PinEvent} {hook : Hook} {hooks : List Hook}
    (h : hooksOf events = hook :: hooks) :
    ∃ k rest, events = hostInstructions k ++ .call hook :: rest ∧ hooksOf rest = hooks := by
  induction events with
  | nil => cases h
  | cons event events ih =>
      cases event with
      | instruction =>
          obtain ⟨k, rest, rfl, hrest⟩ := ih h
          exact ⟨k + 1, rest, rfl, hrest⟩
      | call first =>
          have heq : first :: hooksOf events = hook :: hooks := h
          obtain ⟨rfl, hrest⟩ := List.cons.inj heq
          exact ⟨0, events, rfl, hrest⟩

theorem eq_hostInstructions {events : List PinEvent} (h : hooksOf events = []) :
    ∃ k, events = hostInstructions k := by
  induction events with
  | nil => exact ⟨0, rfl⟩
  | cons event events ih =>
      cases event with
      | instruction =>
          obtain ⟨k, rfl⟩ := ih h
          exact ⟨k + 1, rfl⟩
      | call first => cases h

/-- Behind the first hook of `main`, a window is cut off for each guest instruction. -/
theorem split_windows (n : Nat) {events : List PinEvent}
    (h : hooksOf events = windowHooks n ++ [.exitDispatching]) :
    ∃ (gap : Nat) (windows : List (Nat × Nat)) (after : Nat), windows.length = n ∧
      events = hostInstructions gap ++ windows.flatMap window
        ++ .call .exitDispatching :: hostInstructions after := by
  induction n generalizing events with
  | zero =>
      obtain ⟨gap, rest, rfl, hrest⟩ := split_hook h
      obtain ⟨after, rfl⟩ := eq_hostInstructions hrest
      exact ⟨gap, [], after, rfl, by simp⟩
  | succ n ih =>
      rw [windowHooks_succ] at h
      obtain ⟨gap, rest, rfl, hrest⟩ := split_hook h
      obtain ⟨inside, rest', rfl, hrest'⟩ := split_hook hrest
      -- What is left starts behind the window, with the way to the next one.
      obtain ⟨gap', windows, after, hlen, rfl⟩ := ih hrest'
      exact ⟨gap, (inside, gap') :: windows, after, by simp [hlen], by simp [window]⟩

theorem split_main (n : Nat) {events : List PinEvent}
    (h : hooksOf events = mainHooks (windowHooks n)) :
    ∃ (before gap : Nat) (windows : List (Nat × Nat)) (after : Nat), windows.length = n ∧
      events = mainEvents before gap windows after := by
  obtain ⟨before, rest, rfl, hrest⟩ := split_hook h
  obtain ⟨gap, windows, after, hlen, rfl⟩ := split_windows n hrest
  exact ⟨before, gap, windows, after, hlen, rfl⟩

/-! ### The tool -/

namespace Pintool

/-- The tool after some more events. -/
abbrev after (p : Pintool) (events : List PinEvent) : Pintool := events.foldl event p

/-- Instructions count for the dispatch when only that is switched on. -/
theorem after_dispatching (k d q : Nat) :
    (Pintool.mk true false d q).after (hostInstructions k) = ⟨true, false, d + k, q⟩ := by
  induction k generalizing d with
  | zero => rfl
  | succ k ih =>
      show (Pintool.mk true false (d + 1) q).after (hostInstructions k) = _
      rw [ih, Nat.add_assoc, Nat.add_comm 1]

/-- Inside a window they count for the guest instruction. -/
theorem after_processing (k d q : Nat) :
    (Pintool.mk true true d q).after (hostInstructions k) = ⟨true, true, d, q + k⟩ := by
  induction k generalizing q with
  | zero => rfl
  | succ k ih =>
      show (Pintool.mk true true d (q + 1)).after (hostInstructions k) = _
      rw [ih, Nat.add_assoc, Nat.add_comm 1]

/-- Outside the interpreter they do not count. -/
theorem after_idle (k d q : Nat) :
    (Pintool.mk false false d q).after (hostInstructions k) = ⟨false, false, d, q⟩ := by
  induction k with
  | zero => rfl
  | succ k ih => exact ih

theorem after_append (p : Pintool) (events more : List PinEvent) :
    p.after (events ++ more) = (p.after events).after more := List.foldl_append

theorem after_window (w : Nat × Nat) (d q : Nat) :
    (Pintool.mk true false d q).after (window w) = ⟨true, false, d + w.2, q + w.1⟩ := by
  show (Pintool.mk true true d q).after (hostInstructions w.1 ++ _) = _
  rw [after_append, after_processing]
  exact after_dispatching w.2 d (q + w.1)

theorem after_windows (windows : List (Nat × Nat)) (d q : Nat) :
    (Pintool.mk true false d q).after (windows.flatMap window)
      = ⟨true, false, d + (windows.map Prod.snd).sum, q + (windows.map Prod.fst).sum⟩ := by
  induction windows generalizing d q with
  | nil => rfl
  | cons w windows ih =>
      rw [List.flatMap_cons, after_append, after_window, ih]
      simp [Nat.add_assoc]

theorem run_mainEvents (before gap : Nat) (windows : List (Nat × Nat)) (behind : Nat) :
    run (mainEvents before gap windows behind)
      = ⟨false, false, gap + (windows.map Prod.snd).sum, (windows.map Prod.fst).sum⟩ := by
  show start.after (mainEvents before gap windows behind) = _
  rw [mainEvents, after_append, start, after_idle]
  show (Pintool.mk true false 0 0).after (hostInstructions gap ++ windows.flatMap window ++ _) = _
  rw [after_append, after_append, after_dispatching, after_windows]
  show (Pintool.mk false false _ _).after (hostInstructions behind) = _
  rw [after_idle, Nat.zero_add, Nat.zero_add]

end Pintool

/-! ### The hooks of a run -/

section Runs

variable {host : Host}

theorem emitted_profiling {late : Bool} {w : U32 × Instr} {s t : Machine}
    (h : execute host w.2 w.1 s = .ok t) :
    profiling.emitted host late w s = [.enterProcessing, .exitProcessing] := by
  unfold Instrumentation.emitted
  rw [h]
  cases late <;> rfl

/-- A run calls two hooks for each handler it goes through. -/
theorem profiling_hooks {engine : Engine} {visited : List engine.State} {st st' : engine.State}
    (h : (engine.interpreter host).Run visited st st') :
    visited.flatMap (engine.emitted profiling host)
      = windowHooks (engine.handled visited).length := by
  rw [flatMap_emitted]
  have hok := execute_of_handled h
  generalize engine.handled visited = handlers at hok
  induction handlers with
  | nil => rfl
  | cons first rest ih =>
      obtain ⟨⟨t, ht⟩, hrest⟩ := List.forall_mem_cons.mp hok
      rw [List.flatMap_cons, emitted_profiling ht, ih hrest, List.length_cons, windowHooks_succ]
      rfl

/-- The profile build runs as the plain one, with a window for each handler. -/
theorem profile_run (engine : Engine) {visited : List engine.State} {st st' : engine.State}
    (h : (engine.interpreter host).Run visited st st') :
    ∃ ws, (engine.interpreterWith profiling host).Run ws (st, [])
      (st', windowHooks (engine.handled visited).length) := by
  obtain ⟨ws, hws, -⟩ := (interpreterWith_logs profiling host engine).run h []
  rw [List.nil_append, profiling_hooks h] at hws
  exact ⟨ws, hws⟩

end Runs

/-- What the Pin tool counts. Take any run of a profile build, and any process that calls the
hooks of that run between the two of `main`. The run is one of the plain build. The process
has a window for each guest instruction executed. The processing count is the number of host
instructions inside the windows, and the dispatching count the number of those outside them
while the interpreter runs. The counters of the tool are `UINT64`, and a process is taken to end
before `2 ^ 64` instructions. -/
theorem profile_counts (engine : Engine) (host : Host) (s : Machine)
    (ws : List (engine.State × List Hook)) (st : engine.State) (hooks : List Hook)
    (h : (engine.interpreterWith profiling host).Run ws (engine.start s, []) (st, hooks))
    (events : List PinEvent) (hevents : hooksOf events = mainHooks hooks) :
    (engine.interpreter host).Run (ws.map Prod.fst) (engine.start s) st ∧
      ∃ (before gap : Nat) (windows : List (Nat × Nat)) (after : Nat),
        windows.length = (engine.handled (ws.map Prod.fst)).length ∧
        events = mainEvents before gap windows after ∧
        Pintool.run events
          = ⟨false, false, gap + (windows.map Prod.snd).sum, (windows.map Prod.fst).sum⟩ := by
  obtain ⟨hrun, hhooks⟩ := (interpreterWith_logs profiling host engine).of_run h
  refine ⟨hrun, ?_⟩
  -- The hooks are those of the handlers, so the process splits at them.
  have hwindows : hooks = windowHooks (engine.handled (ws.map Prod.fst)).length := by
    rw [← profiling_hooks hrun]
    simpa using hhooks
  rw [hwindows] at hevents
  obtain ⟨before, gap, windows, after, hlen, rfl⟩ := split_main _ hevents
  exact ⟨before, gap, windows, after, hlen, rfl, Pintool.run_mainEvents before gap windows after⟩

/-- Hooks with nothing between them, which are the least that a process can do. -/
theorem hooksOf_map_call (hooks : List Hook) : hooksOf (hooks.map .call) = hooks := by
  induction hooks with
  | nil => rfl
  | cons hook hooks ih => exact congrArg (hook :: ·) ih

/-- Two instructions of the switch engine, in a process without any other instruction. -/
theorem profile_counts_program :
    ∃ (visited : List Machine) (hooks : List Hook) (t : Machine),
      (interpreterSwitch failingHost).Run visited (program 0x400000 [0x24020fa1, 0xc]) t ∧
      ∃ (before gap : Nat) (windows : List (Nat × Nat)) (after : Nat),
        windows.length = (Engine.switch.handled visited).length ∧
        (mainHooks hooks).map .call = mainEvents before gap windows after ∧
        Pintool.run ((mainHooks hooks).map .call)
          = ⟨false, false, gap + (windows.map Prod.snd).sum, (windows.map Prod.fst).sum⟩ := by
  obtain ⟨t, ⟨⟨visited, hrun⟩, -⟩, -⟩ :=
    returns_of_exec (M := interpreterSwitch failingHost) (n := 2)
      (s := program 0x400000 [0x24020fa1, 0xc]) (p := fun _ => true) (by decide +kernel)
  obtain ⟨ws, hws⟩ := profile_run .switch hrun
  exact ⟨ws.map Prod.fst, _, t,
    profile_counts .switch failingHost _ ws t _ hws _ (hooksOf_map_call _)⟩

/-! ### The same windows in every engine -/

section Alike

variable {host : Host} {m : Nat → Machine} {n : Nat}

/-- Each round of the switch loop goes through one handler. -/
theorem length_switch_handled (h : SwitchRun host m n) :
    (Engine.switch.handled ((List.range n).map m)).length = n := by
  induction n with
  | zero => rfl
  | succ n ih =>
      have hbefore : SwitchRun host m n :=
        ⟨fun i hi => h.running i (by omega), fun i hi => h.step i (by omega)⟩
      obtain ⟨w, -, hone⟩ := switch_handled (h.step n (Nat.lt_succ_self n))
      rw [List.range_succ, List.map_append, handled_append, List.length_append, ih hbefore]
      show n + (Engine.switch.handled [m n]).length = _
      rw [hone]
      rfl

/-- A step from a call of an op runs its handler, and no other step runs one. -/
theorem atOp_eq_handling {e f : BlockedState} (h : blockedStep host e = .ok f) :
    e.atOp = (Engine.blocked.handling e).isSome := by
  obtain ⟨control, blocks, previous, s⟩ := e
  cases control with
  | unrolled current k case =>
      obtain ⟨b, hb, h⟩ := bind_eq_ok.mp h
      obtain ⟨op, hop, h⟩ := bind_eq_ok.mp h
      cases hi : op.op with
      | none => rw [hi] at h; cases h
      | some i =>
          simp [BlockedState.atOp, Engine.handling, Engine.executing, derefBlock_eq_ok.mp hb,
            derefOp_eq_ok.mp hop, hi]
  | outer => rfl
  | inner current => rfl
  | test current k => rfl
  | leave current => rfl
  | returned => rfl

theorem length_blocked_handled {ws : List BlockedState} {e f : BlockedState}
    (h : (interpreterBlocked host).Run ws e f) :
    (Engine.blocked.handled ws).length = ws.countP BlockedState.atOp := by
  rw [Engine.handled, List.length_filterMap_eq_countP]
  refine List.countP_congr fun e he => ?_
  obtain ⟨f, hf⟩ := h.step_of_mem e he
  rw [atOp_eq_handling hf]

/-- Each engine follows the switch engine: it goes through as many handlers and ends with the
same guest state. The tail-call engine dispatches the word after the last one, so there it has
to be supported. -/
theorem engine_follows (hclean : CleanRun host m n) {k : Nat} (hblocks : FirstBlocks m k n)
    (engine : Engine) (hnext : engine = .tailCall → NextWordSupported (m n)) :
    ∃ vs st, (engine.interpreter host).Run vs (engine.start (m 0)) st ∧
      (engine.handled vs).length = n ∧ SameGuest (engine.machine st) (m n) := by
  have hrun := hclean.run.run
  have hlen := length_switch_handled hclean.run
  have hsame : SameGuest (m n) (m n) := by
    have hpipe := sameGuest_withPipe (s := m n) (p := (m n).pipe) rfl rfl
    rwa [Machine.withPipe_pipe] at hpipe
  cases engine with
  | switch => exact ⟨_, m n, hrun, hlen, hsame⟩
  | computedGoto =>
      obtain ⟨vs, hvs, hhandled⟩ := goto_handled hrun
      exact ⟨vs, _, hvs, hhandled ▸ hlen, hsame⟩
  | tailCall =>
      obtain ⟨cir, i, hcir, hi⟩ := hnext rfl
      have hword : currentWord (m n) = some (cir, i) := currentWord_eq_some.mpr ⟨hcir, hi⟩
      obtain ⟨vs, hvs, hhandled⟩ := tail_handled hclean.run hword
      exact ⟨vs, _, hvs, hhandled ▸ hlen, hsame⟩
  | blocked =>
      obtain ⟨vs, e, hvs, -, hops, -, hbound⟩ := simulate_blocks hclean hblocks (Nat.le_refl n)
      exact ⟨vs, e, hvs, (length_blocked_handled hvs).trans hops, hbound.sameGuest⟩

/-- The profile builds open as many windows as the guest executes instructions, and end with
the same guest state. The tail-call engine dispatches the word after the last one as well, which
has to be supported. -/
theorem profile_windows_alike (host : Host) (m : Nat → Machine) (n k : Nat)
    (hclean : CleanRun host m n) (hblocks : FirstBlocks m k n) (engine : Engine)
    (hnext : engine = .tailCall → NextWordSupported (m n)) :
    ∃ ws st, (engine.interpreterWith profiling host).Run ws (engine.start (m 0), [])
        (st, windowHooks n) ∧ SameGuest (engine.machine st) (m n) := by
  obtain ⟨vs, st, hvs, hlen, hsame⟩ := engine_follows hclean hblocks engine hnext
  obtain ⟨ws, hws⟩ := profile_run engine hvs
  rw [hlen] at hws
  exact ⟨ws, st, hws, hsame⟩

/-- Twice from one block to the other. The word after them is that of the first block, which is
supported. -/
theorem profile_windows_alike_pingPong :
    ∃ ws st, (Engine.tailCall.interpreterWith profiling failingHost).Run ws
        (Engine.tailCall.start pingPong, []) (st, windowHooks 12) ∧
      SameGuest (Engine.tailCall.machine st) (runStates failingHost pingPong 12) :=
  profile_windows_alike failingHost _ 12 4 pingPong_clean pingPong_blocks .tailCall
    fun _ => ⟨0x25080001, .addiu, by decide +kernel, rfl⟩

end Alike

end MipsEngines
