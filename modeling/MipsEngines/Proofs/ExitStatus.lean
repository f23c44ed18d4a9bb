import MipsEngines.Model.Mains
import MipsEngines.Proofs.EveryEngine
import MipsEngines.Proofs.TailCall
import MipsEngines.Proofs.BlockRun
import MipsEngines.Proofs.ComputedGoto
import MipsEngines.Proofs.Frames

/-!
# `MipsEngines.Proofs.ExitStatus`: from the exit call to the exit code

The run of the switch engine gets to its first `exit` or `exit_group` (`FirstExit`), and its
process ends with the status of that call. The goto engine comes to the same machine, and so does
the tail-call engine if it can dispatch one word more. The block engine runs the rest of its block
after the exit call, if it gets to one, and its `main` returns `0` in any case.

`exit_status_iff` says which process ends with the status. That of the block engine does only if
the status is `0` as well: `blocked_loses_status`.
-/

set_option autoImplicit false

namespace MipsEngines

open Lib StepMachine

/-! ### The exit call -/

/-- The status that `w` exits with, if it is an exit call. -/
def exitStatus (w : U32 × Instr) (s : Machine) : Option U32 :=
  if w.2 = .syscall ∧ (s.reg MIPS_R_V0 = NR_exit ∨ s.reg MIPS_R_V0 = NR_exit_group) then
    some (s.reg MIPS_R_A0)
  else none

/-- The status that the next step of an engine exits with, if it is an exit call. -/
def Engine.exitCall (engine : Engine) (st : engine.State) : Option U32 :=
  (engine.executing st).bind fun w => exitStatus w (engine.machine st)

/-- A run from `s₀` gets to `st`, where it makes its first exit call. -/
structure FirstExit (host : Host) (engine : Engine) (s₀ : Machine) (st : engine.State)
    (status : U32) : Prop where
  reached : ∃ visited, (engine.interpreter host).Run visited (engine.start s₀) st ∧
    ∀ v ∈ visited, engine.exitCall v = none
  running : (engine.interpreter host).done st = false
  call : engine.exitCall st = some status

/-- There is one first exit call. -/
theorem FirstExit.unique {host : Host} {engine : Engine} {s₀ : Machine} {st st' : engine.State}
    {status status' : U32} (h : FirstExit host engine s₀ st status)
    (h' : FirstExit host engine s₀ st' status') : st = st' ∧ status = status' := by
  -- Of the two runs one goes on where the other ends, and there it would visit an exit call.
  have hnone : ∀ {ws rest : List engine.State} {u v : engine.State} {code : U32},
      (engine.interpreter host).Run rest u v → engine.exitCall u = some code →
      (∀ w ∈ ws ++ rest, engine.exitCall w = none) → u = v := by
    intro ws rest u v code hrest hcall hvisited
    cases hrest with
    | refl => rfl
    | head => cases hcall.symm.trans (hvisited u (by simp))
  obtain ⟨visited, hrun, hvisited⟩ := h.reached
  obtain ⟨visited', hrun', hvisited'⟩ := h'.reached
  have heq : st = st' := by
    rcases hrun.comparable hrun' with ⟨rest, hrest, rfl⟩ | ⟨rest, hrest, rfl⟩
    · exact hnone hrest h.call hvisited'
    · exact (hnone hrest h'.call hvisited).symm
  subst heq
  exact ⟨rfl, Option.some.inj (h.call.symm.trans h'.call)⟩

theorem exitStatus_eq_some (host : Host) {w : U32 × Instr} {s : Machine} {status : U32}
    (h : exitStatus w s = some status) :
    execute host w.2 w.1 s = .ok (mipsSyscallExit s status) := by
  unfold exitStatus at h
  split_ifs at h with hexit
  obtain ⟨hw, hnumber⟩ := hexit
  cases h
  rw [hw]
  exact itpSyscallImpl_exit hnumber _ _ _ s

theorem not_isExit_of_exitStatus {w : U32 × Instr} {s : Machine} (h : exitStatus w s = none)
    (hw : w.2 = .syscall) : ¬ IsExit (s.reg MIPS_R_V0) := by
  intro hexit
  rw [exitStatus, if_pos ⟨hw, hexit⟩] at h
  cases h

/-- At an exit call, the handler of the next step halts the machine with the status. -/
theorem Engine.exitCall_eq_some (host : Host) {engine : Engine} {st : engine.State}
    {status : U32} (h : engine.exitCall st = some status) :
    ∃ w, engine.executing st = some w ∧
      execute host w.2 w.1 (engine.machine st)
        = .ok (mipsSyscallExit (engine.machine st) status) := by
  obtain ⟨w, hw, hexit⟩ := Option.bind_eq_some_iff.mp h
  exact ⟨w, hw, exitStatus_eq_some host hexit⟩

/-- A step without an exit call does not halt the machine. -/
theorem halted_of_exitCall_eq_none {host : Host} {engine : Engine} {st st' : engine.State}
    (hcall : engine.exitCall st = none) (hstep : (engine.interpreter host).step st = .ok st') :
    (engine.machine st').mips.halted = (engine.machine st).mips.halted := by
  have hframe := engine_step engine hstep
  cases hw : engine.executing st with
  | none =>
      rw [hw] at hframe
      obtain ⟨p, hp⟩ := hframe
      rw [hp]
      rfl
  | some w =>
      rw [hw] at hframe
      obtain ⟨t, p, ht, hp⟩ := hframe
      rw [hp]
      rw [Engine.exitCall, hw] at hcall
      have hkeep := execute_running ht (not_isExit_of_exitStatus hcall)
      exact hkeep

/-! ### What is left to run -/

/-- The words of a block after its op `k`. -/
def Block.codeAfter (b : Block) (k : Nat) : Code :=
  (b.ops.drop (k + 1)).filterMap fun op => op.op.map fun i => (op.cir, i)

/-- The words that the block engine runs before it looks at `halted` again. -/
def codeLeft (e : BlockedState) : Code :=
  match e.control with
  | .unrolled current k _ => (e.blocks[current]?.map fun b => b.codeAfter k).getD []
  | _ => []

/-- The block engine can run the rest of its block after an exit call with `status`. -/
def RunsToEnd (host : Host) (e : BlockedState) (status : U32) : Prop :=
  ∃ t, runCode host (codeLeft e) (mipsSyscallExit e.machine status) = .ok t

/-- The rest of a block does not take back the halt. -/
theorem runCode_halted {host : Host} {code : Code} {s t : Machine}
    (h : runCode host code s = .ok t) (hs : s.mips.halted = true) : t.mips.halted = true := by
  induction code generalizing s with
  | nil => cases h; exact hs
  | cons w code ih =>
      rw [runCode_cons] at h
      obtain ⟨s', hw, h⟩ := bind_eq_ok.mp h
      exact ih h (execute_halted hw hs)

/-- The ops after op `k` are the words after word `k`, up to the terminator. -/
theorem Block.Decoded.codeAfter_eq {b : Block} {code : Code} (h : b.Decoded code) {k : Nat}
    (hk : k < code.length) : b.codeAfter k = code.drop (k + 1) := by
  have hterminator : b.ops.drop (k + 1)
      = (code.drop (k + 1)).map opOf ++ [⟨lastWord code, none⟩] := by
    rw [h.ops, List.drop_append_of_le_length (by rw [List.length_map]; omega), List.map_drop]
  unfold Block.codeAfter
  rw [hterminator, List.filterMap_append, List.filterMap_map]
  simp [opOf, Function.comp_def]

/-! ### The rest of a block -/

section RestOfBlock

variable (host : Host) {blocks : List Block} (previous : Option Nat) {current : Nat} {b : Block}
  {code : Code}

/-- An op whose handler fails. -/
theorem op_faults {k case : Nat} {w : U32 × Instr} {s : Machine} {e : Fault}
    (hb : blocks[current]? = some b) (hcode : b.Decoded code) (hw : code[k]? = some w)
    (he : execute host w.2 w.1 s = .error e) :
    (interpreterBlocked host).Faults ⟨.unrolled current k case, blocks, previous, s⟩ e := by
  have hstep := blockedStep_unrolled host previous s case hb (hcode.op_lt hw)
  rw [he] at hstep
  exact ⟨_, .refl _, rfl, hstep⟩

/-- The first word of the rest of a block, and what is left after it. -/
theorem runCode_drop {code : Code} {k : Nat} (hk : k < code.length) (s : Machine) :
    runCode host (code.drop k) s
      = execute host code[k].2 code[k].1 s >>= runCode host (code.drop (k + 1)) := by
  rw [List.drop_eq_getElem_cons hk, runCode_cons]

/-- The engine runs the rest of a block as `runCode` does: it leaves the block with the same
machine, or fails. -/
theorem rest_of_block (hb : blocks[current]? = some b) (hcode : b.Decoded code) {k case : Nat}
    {s : Machine} (hk : k < code.length) (hcase : CaseOk code.length k case) :
    (∀ t, runCode host (code.drop k) s = .ok t →
      (interpreterBlocked host).Reaches ⟨.unrolled current k case, blocks, previous, s⟩
        ⟨.leave current, blocks, previous, t⟩) ∧
    (∀ e, runCode host (code.drop k) s = .error e →
      (interpreterBlocked host).Faults ⟨.unrolled current k case, blocks, previous, s⟩ e) := by
  -- Induction on the number of words after word `k`.
  obtain ⟨left, hleft⟩ : ∃ left, k + left + 1 = code.length := ⟨code.length - k - 1, by omega⟩
  induction left generalizing k case s with
  | zero =>
      have hw : code[k]? = some code[k] := List.getElem?_eq_getElem hk
      rw [runCode_drop host hk, List.drop_eq_nil_of_le (by omega)]
      constructor
      · intro t ht
        obtain ⟨u, hu, ht⟩ := bind_eq_ok.mp ht
        cases ht
        obtain ⟨ws, hws, -⟩ := last_op_run previous hb hcode.terminated hcase hw (by omega) hu
        exact ⟨ws, hws⟩
      · intro e he
        rcases bind_eq_error.mp he with hfault | ⟨u, -, hnil⟩
        · exact op_faults host previous hb hcode hw hfault
        · cases hnil
  | succ left ih =>
      have hw : code[k]? = some code[k] := List.getElem?_eq_getElem hk
      rw [runCode_drop host hk]
      -- A handler that returns leads to the next op, for which the hypothesis holds.
      have hnext : ∀ u, execute host code[k].2 code[k].1 s = .ok u →
          ∃ case', CaseOk code.length (k + 1) case' ∧
            (interpreterBlocked host).Reaches ⟨.unrolled current k case, blocks, previous, s⟩
              ⟨.unrolled current (k + 1) case', blocks, previous, u⟩ := by
        intro u hu
        obtain ⟨ws, case', hws, -, -, hcase'⟩ :=
          op_run previous hb hcode.terminated hcase hw (by omega) hu
        exact ⟨case', hcase', ws, hws⟩
      constructor
      · intro t ht
        obtain ⟨u, hu, ht⟩ := bind_eq_ok.mp ht
        obtain ⟨case', hcase', hone⟩ := hnext u hu
        exact hone.trans ((ih (by omega) hcase' (by omega)).1 t ht)
      · intro e he
        rcases bind_eq_error.mp he with hfault | ⟨u, hu, he⟩
        · exact op_faults host previous hb hcode hw hfault
        · obtain ⟨case', hcase', hone⟩ := hnext u hu
          obtain ⟨f, hf, hfault⟩ := (ih (by omega) hcase' (by omega)).2 e he
          exact ⟨f, hone.trans hf, hfault⟩

/-- At the end of a block, a halted machine returns through the outer loop. -/
theorem leave_returns {s : Machine} (hb : blocks[current]? = some b)
    (hhalt : s.mips.halted = true) :
    ∃ f, (interpreterBlocked host).Returns ⟨.leave current, blocks, previous, s⟩ f := by
  have hleave := blockedStep_leave host previous s hb
  have houter : afterBlock b s.mips = .outer := by
    rcases afterBlock_cases b s.mips with houter | ⟨p, -, -, -, hrunning⟩
    · exact houter
    · rw [hhalt] at hrunning
      cases hrunning
  rw [houter] at hleave
  have hreturn : blockedStep host
      ⟨.outer, blocks, some current, s.setReg MIPS_R_PC (s.reg MIPS_R_NNPC)⟩ = .ok _ :=
    blockedStep_outer_halted host _ _ hhalt
  exact ⟨_, ⟨_, .head rfl hleave (.single rfl hreturn)⟩, rfl⟩

end RestOfBlock

/-! ### The block engine after the exit call -/

section Outcome

variable (host : Host) {status : U32}

/-- The block engine returns exactly when the rest of the block can be run. -/
theorem blocked_outcome {e : BlockedState} (hinv : BlockedInv e)
    (hcall : Engine.exitCall .blocked e = some status) :
    (∃ f, (interpreterBlocked host).Returns e f) ↔ RunsToEnd host e status := by
  obtain ⟨w, hw, hexec⟩ := Engine.exitCall_eq_some host hcall
  obtain ⟨control, blocks, previous, s⟩ := e
  cases control with
  | unrolled current k case =>
      -- Only `unrolled` executes; the word is the one at `k` in the code of the block.
      obtain ⟨b, code, hb, hin, hk, hcase⟩ := hinv.control
      have hword : code[k]? = some code[k] := List.getElem?_eq_getElem hk
      have hwk : w = code[k] := by
        simp only [Engine.executing, hb, hin.decoded.op_lt hword, opOf, Option.bind_eq_bind,
          Option.bind_some] at hw
        exact (Option.some.inj hw).symm
      subst hwk
      have hleft : codeLeft ⟨.unrolled current k case, blocks, previous, s⟩
          = code.drop (k + 1) := by
        simp only [codeLeft, hb, Option.map_some, Option.getD_some]
        exact hin.decoded.codeAfter_eq hk
      have hexec : execute host code[k].2 code[k].1 s = .ok (mipsSyscallExit s status) := hexec
      -- The call has set `halted`, but the block runs on to its end.
      have hrest : runCode host (code.drop k) s
          = runCode host (code.drop (k + 1)) (mipsSyscallExit s status) := by
        rw [runCode_drop host hk, hexec]
        rfl
      obtain ⟨hok, herror⟩ := rest_of_block host previous (s := s) hb hin.decoded hk hcase
      show _ ↔ ∃ t, runCode host (codeLeft _) (mipsSyscallExit s status) = .ok t
      rw [hleft, ← hrest]
      constructor
      · -- An error in the rest of the block would be the engine's only end.
        rintro ⟨f, hf⟩
        cases hrun : runCode host (code.drop k) s with
        | ok t => exact ⟨t, rfl⟩
        | error e => exact absurd (herror e hrun) hf.not_faults
      · rintro ⟨t, ht⟩
        have hhalt : t.mips.halted = true := runCode_halted (hrest ▸ ht) rfl
        obtain ⟨f, hf⟩ := leave_returns host previous hb hhalt
        obtain ⟨ws, hws⟩ := hok t ht
        exact ⟨f, (Returns.of_run hws).mpr hf⟩
  | outer => cases hw
  | inner current => cases hw
  | test current k => cases hw
  | leave current => cases hw
  | returned => cases hw

variable {host}

/-- The loops go on. -/
structure BlockedState.Running (e : BlockedState) : Prop where
  halted : e.machine.mips.halted = false
  control : e.control ≠ .returned

/-- Only an exit call ends the loops. -/
theorem BlockedState.Running.step {e e' : BlockedState} (h : e.Running)
    (hcall : Engine.exitCall .blocked e = none) (hstep : blockedStep host e = .ok e') :
    e'.Running := by
  have hkeep : (Engine.blocked.machine e').mips.halted = (Engine.blocked.machine e).mips.halted :=
    halted_of_exitCall_eq_none hcall hstep
  have hhalt : e'.machine.mips.halted = false := hkeep.trans h.halted
  refine ⟨hhalt, fun hreturned => ?_⟩
  obtain ⟨control, blocks, previous, s⟩ := e
  cases control with
  | outer =>
      rcases blockedStep_outer host previous s h.halted hstep with ⟨_, -, rfl⟩ | ⟨_, -, -, rfl⟩
      · cases hreturned
      · cases hreturned
  | inner current =>
      obtain ⟨_, -, hstep⟩ := bind_eq_ok.mp hstep
      cases hstep
      cases hreturned
  | unrolled current k case =>
      obtain ⟨_, -, hstep⟩ := bind_eq_ok.mp hstep
      obtain ⟨op, -, hstep⟩ := bind_eq_ok.mp hstep
      cases hop : op.op with
      | none => simp [hop] at hstep
      | some i =>
          simp only [hop] at hstep
          obtain ⟨_, -, hstep⟩ := bind_eq_ok.mp hstep
          cases hstep
          dsimp only at hreturned
          split_ifs at hreturned
  | test current k =>
      obtain ⟨_, -, hstep⟩ := bind_eq_ok.mp hstep
      obtain ⟨_, -, hstep⟩ := bind_eq_ok.mp hstep
      cases hstep
      dsimp only at hreturned
      split_ifs at hreturned
  | leave current =>
      obtain ⟨b, -, hstep⟩ := bind_eq_ok.mp hstep
      cases hstep
      rcases afterBlock_cases b (s.setReg MIPS_R_PC (s.reg MIPS_R_NNPC)).mips with houter |
        ⟨_, hinner, -⟩
      · cases houter.symm.trans hreturned
      · cases hinner.symm.trans hreturned
  | returned => exact h.control rfl

/-- A run that returns has made an exit call. -/
theorem exitCall_of_run {ws : List BlockedState} {e f : BlockedState}
    (h : (interpreterBlocked host).Run ws e f) (hdone : (interpreterBlocked host).done f = true)
    (hrunning : e.Running) :
    ∃ vs st status, (interpreterBlocked host).Run vs e st ∧
      (∀ v ∈ vs, Engine.exitCall .blocked v = none) ∧
      Engine.exitCall .blocked st = some status ∧ (interpreterBlocked host).Reaches st f := by
  induction h with
  | refl e =>
      obtain ⟨control, blocks, previous, s⟩ := e
      cases control with
      | returned => exact absurd rfl hrunning.control
      | _ => cases hdone
  | @head e e' f ws hgo hstep hrest ih =>
      cases hcall : Engine.exitCall .blocked e with
      | some status => exact ⟨[], e, status, .refl e, by simp, hcall, _, .head hgo hstep hrest⟩
      | none =>
          obtain ⟨vs, st, status, hvs, hnone, hst, hreach⟩ := ih hdone (hrunning.step hcall hstep)
          exact ⟨e :: vs, st, status, .head hgo hstep hvs,
            List.forall_mem_cons.mpr ⟨hcall, hnone⟩, hst, hreach⟩

/-- The block engine returns exactly when it gets to an exit call and can run the rest of its
block. -/
theorem blocked_returns_iff {s₀ : Machine} (hrunning : s₀.mips.halted = false) :
    (∃ f, (interpreterBlocked host).Returns (.start s₀) f) ↔
      ∃ e status, FirstExit host .blocked s₀ e status ∧ RunsToEnd host e status := by
  have hinv : ∀ {vs : List BlockedState} {e : BlockedState},
      (interpreterBlocked host).Run vs (.start s₀) e → BlockedInv e := fun hvs =>
    (blockedInv_start s₀).of_reaches ⟨_, hvs⟩
  constructor
  · rintro ⟨f, ⟨ws, hws⟩, hdone⟩
    obtain ⟨vs, e, status, hvs, hnone, hcall, hreach⟩ :=
      exitCall_of_run hws hdone ⟨hrunning, fun h => nomatch h⟩
    have hgo : (interpreterBlocked host).done e = false := by
      obtain ⟨control, blocks, previous, s⟩ := e
      cases control with
      | returned => cases hcall
      | _ => rfl
    refine ⟨e, status, ⟨⟨vs, hvs, hnone⟩, hgo, hcall⟩, ?_⟩
    exact (blocked_outcome host (hinv hvs) hcall).mp ⟨f, hreach, hdone⟩
  · rintro ⟨e, status, ⟨⟨vs, hvs, -⟩, -, hcall⟩, hrest⟩
    obtain ⟨f, hf⟩ := (blocked_outcome host (hinv hvs) hcall).mpr hrest
    exact ⟨f, (Returns.of_run hvs).mpr hf⟩

end Outcome

/-! ### The other engines after the exit call -/

section Others

variable {host : Host} {s₀ s t : Machine} {status : U32}

/-- The switch loop stops, with the machine of the exit call. -/
theorem FirstExit.switch_returns (h : FirstExit host .switch s₀ s status) :
    (interpreterSwitch host).Returns s₀ (incrementPc (mipsSyscallExit s status)) := by
  obtain ⟨⟨visited, hvisited, -⟩, hrunning, hcall⟩ := h
  obtain ⟨w, hw, hexec⟩ := Engine.exitCall_eq_some host hcall
  obtain ⟨hcir, hi⟩ := currentWord_eq_some.mp hw
  have hstep : switchStep host s = .ok (incrementPc (mipsSyscallExit s status)) :=
    switchStep_eq_ok.mpr ⟨w.1, w.2, _, hcir, hi, hexec, rfl⟩
  exact (Returns.of_run hvisited).mpr ⟨⟨_, .single hrunning hstep⟩, rfl⟩

/-- The machine has not halted before the call. -/
theorem FirstExit.running_start (h : FirstExit host .switch s₀ s status) :
    s₀.mips.halted = false := by
  obtain ⟨⟨visited, hvisited, -⟩, hrunning, -⟩ := h
  cases hvisited with
  | refl => exact hrunning
  | head hdone => exact hdone

/-- The goto engine returns with the machine of the switch engine. -/
theorem goto_returns (h : (interpreterSwitch host).Returns s t) :
    (interpreterComputedGoto host).Returns ⟨.dispatch, s⟩ ⟨.returned, t⟩ := by
  obtain ⟨⟨visited, hvisited⟩, hhalt⟩ := h
  obtain ⟨ws, g, hws, -, rfl⟩ := hvisited.simulate
    (N := interpreterComputedGoto host) (p := GotoState.atInstr)
    (R := fun s g => g = ⟨.dispatch, s⟩)
    (fun s s' g hg hdone hstep => by
      subst hg
      obtain ⟨as, has, hone⟩ := goto_round host hdone hstep
      exact ⟨as, _, has, hone, rfl⟩)
    (a := ⟨.dispatch, s⟩) rfl
  obtain ⟨us, hus, -⟩ := (goto_returns_iff host t).mp hhalt
  exact ⟨⟨_, hws.append hus⟩, rfl⟩

/-- The tail-call engine returns with the machine of the switch engine, or it fails to dispatch
the next word. -/
theorem tail_returns (h : (interpreterSwitch host).Returns s t) {c : TailState} :
    (interpreterTailCall host).Returns ⟨.entry, s⟩ c
      ↔ NextWordSupported t ∧ c = ⟨.returned, t⟩ := by
  obtain ⟨⟨visited, hvisited⟩, hhalt⟩ := h
  obtain ⟨c', ⟨ws, hws⟩, hdone, hstep⟩ := tail_along hvisited (c := ⟨.entry, s⟩) rfl rfl
  have hreturns := tail_returns_of_halted hdone hstep hhalt
  rw [Returns.of_run hws]
  constructor
  · intro hc
    have hnext : NextWordSupported t := by
      by_contra hno
      obtain ⟨e, hfault⟩ := tail_faults_of_unsupported hdone hstep hno
      exact hc.not_faults hfault
    exact ⟨hnext, hc.unique (hreturns.mpr hnext)⟩
  · rintro ⟨hnext, rfl⟩
    exact hreturns.mpr hnext

end Others

/-! ### The exit codes -/

section ExitCode

variable {engine : Engine} {host : Host} {elf : List U8} {fresh : Nat → Nat → U8} {s₀ : Machine}

theorem exitsWith_iff {code : Nat} (hload : loaderElf elf fresh .initial = .ok s₀) :
    engine.ExitsWith host elf fresh code ↔
      ∃ f, (engine.interpreter host).Returns (engine.start s₀) f ∧
        code = (engine.mainReturn (engine.machine f).mips).toNat % 256 := by
  constructor
  · rintro ⟨s, f, hs, hf, hcode⟩
    cases hs.symm.trans hload
    exact ⟨f, hf, hcode⟩
  · rintro ⟨f, hf, hcode⟩
    exact ⟨s₀, f, hload, hf, hcode⟩

/-- The `main` of the block engine returns `0`. -/
theorem blocked_exitsWith_iff {code : Nat} (hload : loaderElf elf fresh .initial = .ok s₀)
    (hrunning : s₀.mips.halted = false) :
    Engine.blocked.ExitsWith host elf fresh code ↔ code = 0 ∧
      ∃ e status, FirstExit host .blocked s₀ e status ∧ RunsToEnd host e status := by
  rw [exitsWith_iff hload, ← blocked_returns_iff hrunning]
  constructor
  · rintro ⟨f, hf, hcode⟩
    exact ⟨hcode, f, hf⟩
  · rintro ⟨hcode, f, hf⟩
    exact ⟨f, hf, hcode⟩

end ExitCode

/-- What an engine needs for its process to end with the status of an exit call that the switch
engine makes in the state `s`. The block engine makes its own exit call, and returns 0. -/
def StatusArrives (host : Host) (s₀ s : Machine) (status : U32) : Engine → Prop
  | .switch => True
  | .computedGoto => True
  | .tailCall => NextWordSupported (incrementPc s)
  | .blocked => status.toNat % 256 = 0 ∧
      ∃ e status', FirstExit host .blocked s₀ e status' ∧ RunsToEnd host e status'

section Arrival

variable {host : Host} {elf : List U8} {fresh : Nat → Nat → U8} {s₀ s : Machine} {status : U32}

/-- One engine. -/
theorem exitsWith_status_iff (hload : loaderElf elf fresh .initial = .ok s₀)
    (hfirst : FirstExit host .switch s₀ s status) (engine : Engine) :
    engine.ExitsWith host elf fresh (status.toNat % 256) ↔
      StatusArrives host s₀ s status engine := by
  have hswitch := hfirst.switch_returns
  cases engine with
  | switch => exact iff_of_true ((exitsWith_iff hload).mpr ⟨_, hswitch, rfl⟩) trivial
  | computedGoto =>
      exact iff_of_true ((exitsWith_iff hload).mpr ⟨_, goto_returns hswitch, rfl⟩) trivial
  | tailCall =>
      rw [exitsWith_iff hload]
      constructor
      · rintro ⟨c, hc, -⟩
        exact ((tail_returns hswitch).mp hc).1
      · intro hnext
        exact ⟨_, (tail_returns hswitch).mpr ⟨hnext, rfl⟩, rfl⟩
  | blocked => exact blocked_exitsWith_iff hload hfirst.running_start

end Arrival

/-- Let the program exit with `status`, which is what it does on the switch engine. The process of
an engine ends with the status exactly when: always, for the switch and the goto engine; if the
word behind the exit call is supported, for the tail-call engine; and for the block engine, if the
status is a multiple of 256, the engine gets to an exit call, and it can run the rest of its
block. If the call the block engine gets to is to be one with this status as well, it has to be
said of that call. -/
theorem exit_status_iff (host : Host) (elf : List U8) (fresh : Nat → Nat → U8) (s₀ : Machine)
    (hload : loaderElf elf fresh .initial = .ok s₀) (s : Machine) (status : U32)
    (hfirst : FirstExit host .switch s₀ s status) :
    (∀ engine : Engine, engine.ExitsWith host elf fresh (status.toNat % 256) ↔
      StatusArrives host s₀ s status engine) ∧
    ((∃ e, FirstExit host .blocked s₀ e status) ∧
        Engine.blocked.ExitsWith host elf fresh (status.toNat % 256) ↔
      status.toNat % 256 = 0 ∧
        ∃ e, FirstExit host .blocked s₀ e status ∧ RunsToEnd host e status) := by
  refine ⟨exitsWith_status_iff hload hfirst, ?_⟩
  rw [exitsWith_status_iff hload hfirst]
  constructor
  · rintro ⟨⟨e, he⟩, hzero, e', status', he', hend⟩
    obtain ⟨rfl, rfl⟩ := he.unique he'
    exact ⟨hzero, e, he, hend⟩
  · rintro ⟨hzero, e, he, hend⟩
    exact ⟨⟨e, he⟩, hzero, e, status, he, hend⟩

/-! ### A program with status 3 -/

/-- `exit(3)`, and a branch that ends its block. -/
abbrev statusElf : List U8 :=
  elfOf 0x400000 [0x24040003, 0x24020fa1, 0x0000000c, 0x10000000, 0x00000000]

/-- A run to a first exit call, by evaluation. -/
theorem firstExit_of_execUntil (engine : Engine) {host : Host} {s₀ : Machine} (status : U32)
    {n : Nat} {q : engine.State → Bool}
    (h : okWith (fun st => !(engine.interpreter host).done st &&
        (engine.exitCall st == some status && q st))
      ((engine.interpreter host).execUntil (fun v => (engine.exitCall v).isSome) n
        (engine.start s₀)) = true) :
    ∃ st, FirstExit host engine s₀ st status ∧ q st = true := by
  obtain ⟨st, hst, hcheck⟩ := okWith_eq_true.mp h
  obtain ⟨hdone, hcheck⟩ := Bool.and_eq_true_iff.mp hcheck
  obtain ⟨hcall, hq⟩ := Bool.and_eq_true_iff.mp hcheck
  obtain ⟨visited, hvisited, hnone⟩ := run_of_execUntil hst
  refine ⟨st, ⟨⟨visited, hvisited, fun v hv => ?_⟩, by simpa using hdone, eq_of_beq hcall⟩, hq⟩
  exact Option.not_isSome_iff_eq_none.mp (by simp [hnone v hv])

/-- The program exits with 3 on the switch engine, and the word behind the exit call is
supported. -/
theorem statusElf_firstExit :
    ∃ s₀ s, loaderElf statusElf (fun _ _ => 0) .initial = .ok s₀ ∧
      FirstExit failingHost .switch s₀ s 3 ∧ NextWordSupported (incrementPc s) := by
  have hcheck : okWith (fun s₀ =>
        okWith (fun s => !(interpreterSwitch failingHost).done s &&
            (Engine.switch.exitCall s == some 3 &&
              okWith (fun cir => (switchDispatch cir).isSome) (fetch (incrementPc s))))
          ((interpreterSwitch failingHost).execUntil
            (fun v => (Engine.switch.exitCall v).isSome) 8 s₀))
      (loaderElf statusElf (fun _ _ => 0) .initial) = true := by decide +kernel
  obtain ⟨s₀, hload, hcheck⟩ := okWith_eq_true.mp hcheck
  obtain ⟨s, hfirst, hnext⟩ := firstExit_of_execUntil .switch 3 hcheck
  obtain ⟨cir, hcir, hsome⟩ := okWith_eq_true.mp hnext
  obtain ⟨i, hi⟩ := Option.isSome_iff_exists.mp hsome
  exact ⟨s₀, s, hload, hfirst, cir, i, hcir, hi⟩

/-- The other three processes end with the status. -/
theorem exit_status_iff_statusElf :
    Engine.switch.ExitsWith failingHost statusElf (fun _ _ => 0) 3 ∧
      Engine.computedGoto.ExitsWith failingHost statusElf (fun _ _ => 0) 3 ∧
      Engine.tailCall.ExitsWith failingHost statusElf (fun _ _ => 0) 3 := by
  obtain ⟨s₀, s, hload, hfirst, hnext⟩ := statusElf_firstExit
  have hstatus := (exit_status_iff failingHost statusElf (fun _ _ => 0) s₀ hload s 3 hfirst).1
  exact ⟨(hstatus .switch).mpr trivial, (hstatus .computedGoto).mpr trivial,
    (hstatus .tailCall).mpr hnext⟩

/-- The block engine gets to its exit call and returns, and its process ends with 0. -/
theorem blocked_loses_status :
    ∃ s₀ s, loaderElf statusElf (fun _ _ => 0) .initial = .ok s₀ ∧
      FirstExit failingHost .switch s₀ s 3 ∧
      Engine.blocked.ExitsWith failingHost statusElf (fun _ _ => 0) 0 ∧
      ¬ Engine.blocked.ExitsWith failingHost statusElf (fun _ _ => 0) ((3 : U32).toNat % 256) := by
  have hcheck : okWith (fun s₀ =>
        okWith (fun e => !(interpreterBlocked failingHost).done e &&
            (Engine.blocked.exitCall e == some 3 &&
              okWith (fun _ => true)
                (runCode failingHost (codeLeft e) (mipsSyscallExit e.machine 3))))
          ((interpreterBlocked failingHost).execUntil
            (fun v => (Engine.blocked.exitCall v).isSome) 8 (Engine.blocked.start s₀)))
      (loaderElf statusElf (fun _ _ => 0) .initial) = true := by decide +kernel
  obtain ⟨s₀, s, hload, hfirst, -⟩ := statusElf_firstExit
  obtain ⟨s₁, hload₁, hcheck⟩ := okWith_eq_true.mp hcheck
  cases hload.symm.trans hload₁
  obtain ⟨e, hexit, hrest⟩ := firstExit_of_execUntil .blocked 3 hcheck
  obtain ⟨t, ht, -⟩ := okWith_eq_true.mp hrest
  have hcode : ∀ code, Engine.blocked.ExitsWith failingHost statusElf (fun _ _ => 0) code ↔
      code = 0 ∧ _ := fun _ => blocked_exitsWith_iff hload hfirst.running_start
  refine ⟨s₀, s, hload, hfirst, ?_, ?_⟩
  · exact (hcode 0).mpr ⟨rfl, e, 3, hexit, t, ht⟩
  · intro hthree
    obtain ⟨hzero, -⟩ := (hcode _).mp hthree
    exact absurd hzero (by decide)

end MipsEngines
