import MipsEngines.Proofs.BlockLinks

/-!
# `MipsEngines.Proofs.BlockRun`: the unrolled loop runs a block

From the head of the inner loop, the engine calls the ops of its block one after the
other, each once, and then leaves the block: `block_run`. `block_run_to` is the same up
to one op. `Calls` says what a stretch of the loop did: at which machines it called which ops,
and of which ops it read the handler.
-/

set_option autoImplicit false

namespace MipsEngines

open Lib StepMachine

/-- The machines at which an op was called, first to last. -/
def opMachines (ws : List BlockedState) : List Machine :=
  (ws.filter BlockedState.atOp).map BlockedState.machine

@[simp] theorem opMachines_nil : opMachines [] = [] := rfl

@[simp] theorem opMachines_append (ws vs : List BlockedState) :
    opMachines (ws ++ vs) = opMachines ws ++ opMachines vs := by
  simp [opMachines]

theorem length_opMachines (ws : List BlockedState) :
    (opMachines ws).length = ws.countP BlockedState.atOp := by
  rw [opMachines, List.length_map, List.countP_eq_length_filter]

theorem mem_opMachines {ws : List BlockedState} {s : Machine} :
    s ∈ opMachines ws ↔ ∃ w ∈ ws, w.atOp = true ∧ w.machine = s := by
  simp [opMachines, and_assoc]

/-- The calls of ops, first to last: the place of the block, and that of the op in it. -/
def opCalls (ws : List BlockedState) : List (Nat × Nat) :=
  ws.filterMap fun w => match w.control with
    | .unrolled current k _ => some (current, k)
    | _ => none

/-- The places of the ops that were read, to be called or to be tested. -/
def opReads (ws : List BlockedState) : List Nat :=
  ws.filterMap fun w => match w.control with
    | .unrolled _ k _ => some k
    | .test _ k => some k
    | _ => none

/-- A stretch of the unrolled loop that calls the ops from `first` on, one for each of the
machines in `ms`. It reads no op past the one after them. -/
structure Calls (ws : List BlockedState) (current first : Nat) (ms : List Machine) : Prop where
  machines : opMachines ws = ms
  calls : opCalls ws = (List.range' first ms.length).map fun k => (current, k)
  reads : ∀ k ∈ opReads ws, k ≤ first + ms.length

theorem Calls.append {ws vs : List BlockedState} {current first : Nat} {ms ms' : List Machine}
    (h : Calls ws current first ms) (h' : Calls vs current (first + ms.length) ms') :
    Calls (ws ++ vs) current first (ms ++ ms') where
  machines := by rw [opMachines_append, h.machines, h'.machines]
  calls := by
    have happend : opCalls (ws ++ vs) = opCalls ws ++ opCalls vs := List.filterMap_append
    rw [happend, h.calls, h'.calls, List.length_append, ← List.map_append, List.range'_append_1]
  reads := by
    have happend : opReads (ws ++ vs) = opReads ws ++ opReads vs := List.filterMap_append
    intro k hk
    rw [List.length_append]
    rcases List.mem_append.mp (happend ▸ hk) with hk | hk
    · exact Nat.le_trans (h.reads k hk) (by omega)
    · exact Nat.le_trans (h'.reads k hk) (by omega)

section Block

variable {host : Host} {blocks : List Block} (previous : Option Nat) {current : Nat} {b : Block}
  {code : Code}

/-- One op that is not the last one. -/
theorem op_run {k case : Nat} {w : U32 × Instr} {s t : Machine} (hb : blocks[current]? = some b)
    (hcode : b.Terminated code) (hcase : CaseOk code.length k case) (hw : code[k]? = some w)
    (hk : k + 1 < code.length) (ht : execute host w.2 w.1 s = .ok t) :
    ∃ ws case', (interpreterBlocked host).Run ws ⟨.unrolled current k case, blocks, previous, s⟩
        ⟨.unrolled current (k + 1) case', blocks, previous, t⟩ ∧
      Calls ws current k [s] ∧ ws.countP BlockedState.atBlock = 0 ∧
      CaseOk code.length (k + 1) case' := by
  obtain ⟨hone, height, hmod⟩ := hcase
  have hstep := blockedStep_unrolled host previous s case hb (hcode.op_lt hw)
  rw [ht, map_ok] at hstep
  by_cases hc : case = 1
  · -- The last label: the loop tests the next op, which is not the terminator.
    rw [if_pos hc] at hstep
    have hnext : code[k + 1]? = some code[k + 1] := List.getElem?_eq_getElem hk
    have htest := blockedStep_test host previous t hb (hcode.op_lt hnext)
    exact ⟨_, 8, .head rfl hstep (.single rfl htest), ⟨rfl, rfl, by simp [opReads]⟩, rfl,
      ⟨by omega, by omega, by omega⟩⟩
  · rw [if_neg hc] at hstep
    exact ⟨_, case - 1, .single rfl hstep, ⟨rfl, rfl, by simp [opReads]⟩, rfl,
      ⟨by omega, by omega, by omega⟩⟩

/-- The last op: the test that follows finds the terminator. -/
theorem last_op_run {k case : Nat} {w : U32 × Instr} {s t : Machine}
    (hb : blocks[current]? = some b) (hcode : b.Terminated code)
    (hcase : CaseOk code.length k case) (hw : code[k]? = some w) (hk : k + 1 = code.length)
    (ht : execute host w.2 w.1 s = .ok t) :
    ∃ ws, (interpreterBlocked host).Run ws ⟨.unrolled current k case, blocks, previous, s⟩
        ⟨.leave current, blocks, previous, t⟩ ∧
      Calls ws current k [s] ∧ ws.countP BlockedState.atBlock = 0 := by
  obtain ⟨hone, height, hmod⟩ := hcase
  have hstep := blockedStep_unrolled host previous s case hb (hcode.op_lt hw)
  -- The congruence leaves only `case 1` for the last op.
  rw [ht, map_ok, if_pos (by omega), hk] at hstep
  obtain ⟨cir, hlast⟩ := hcode.op_length
  have htest := blockedStep_test host previous t hb hlast
  exact ⟨_, .head rfl hstep (.single rfl htest), ⟨rfl, rfl, by simp [opReads]; omega⟩, rfl⟩

variable {u : Nat → Machine} {s : Machine}

/-- The first `j` ops of a block, from the head of the inner loop to the call of op `j`. -/
theorem block_run_to (hb : blocks[current]? = some b) (hcode : b.Terminated code)
    (hentry : u 0 = preIncrement b s) {j : Nat} (hj : j < code.length)
    (hops : ∀ k w, k < j → code[k]? = some w → execute host w.2 w.1 (u k) = .ok (u (k + 1))) :
    ∃ ws case, (interpreterBlocked host).Run ws ⟨.inner current, blocks, previous, s⟩
        ⟨.unrolled current j case, blocks, previous, u j⟩ ∧
      Calls ws current 0 ((List.range j).map u) ∧ ws.countP BlockedState.atBlock = 1 ∧
      CaseOk code.length j case := by
  induction j with
  | zero =>
      -- The `switch` enters at the label that makes the rest a multiple of eight.
      obtain ⟨hone, height, hmod⟩ := hcode.firstCase_spec
      refine ⟨_, firstCase b, .single rfl ?_, ⟨rfl, rfl, by simp [opReads]⟩, rfl,
        ⟨hone, height, by omega⟩⟩
      rw [hentry]
      exact blockedStep_inner host previous s hb
  | succ j ih =>
      obtain ⟨ws, case, hrun, hcalls, hcount, hcase⟩ :=
        ih (by omega) fun k w hk hw => hops k w (by omega) hw
      have hw : code[j]? = some code[j] := List.getElem?_eq_getElem (by omega)
      obtain ⟨vs, case', hrun', hcalls', hcount', hcase'⟩ :=
        op_run previous hb hcode hcase hw hj (hops j _ (by omega) hw)
      refine ⟨ws ++ vs, case', hrun.append hrun', ?_, ?_, hcase'⟩
      · rw [List.range_succ, List.map_append]
        exact hcalls.append (by simpa using hcalls')
      · rw [List.countP_append, hcount, hcount']

/-- A block, from the head of the inner loop to the end of the unrolled one. Its ops are
called in order, each once. -/
theorem block_run (hb : blocks[current]? = some b) (hcode : b.Terminated code)
    (hpos : 0 < code.length) (hentry : u 0 = preIncrement b s)
    (hops : ∀ k w, code[k]? = some w → execute host w.2 w.1 (u k) = .ok (u (k + 1))) :
    ∃ ws, (interpreterBlocked host).Run ws ⟨.inner current, blocks, previous, s⟩
        ⟨.leave current, blocks, previous, u code.length⟩ ∧
      Calls ws current 0 ((List.range code.length).map u) ∧
      ws.countP BlockedState.atBlock = 1 := by
  obtain ⟨j, hj⟩ := Nat.exists_eq_add_one.mpr hpos
  -- Up to the last op, and then the last op.
  obtain ⟨ws, case, hrun, hcalls, hcount, hcase⟩ :=
    block_run_to previous hb hcode hentry (show j < code.length by omega)
      fun k w _ hw => hops k w hw
  have hw : code[j]? = some code[j] := List.getElem?_eq_getElem (by omega)
  obtain ⟨vs, hrun', hcalls', hcount'⟩ :=
    last_op_run previous hb hcode hcase hw hj.symm (hops j _ hw)
  rw [hj]
  refine ⟨ws ++ vs, hrun.append hrun', ?_, ?_⟩
  · rw [List.range_succ, List.map_append]
    exact hcalls.append (by simpa using hcalls')
  · rw [List.countP_append, hcount, hcount']

end Block

end MipsEngines
