import MipsEngines.Proofs.Profile

/-!
# `MipsEngines.Proofs.Listings`: the listings of the three engines

With `__DISASSEMBLE__` each engine prints a line per instruction, from `PC` and `NNPC` as
they are where its `X` has the formatter. `listings` says what comes of that over a run: the same
instructions in the same order, under three different pairs of addresses.

The address in front of a line is that of the instruction in the switch engine and in the
tail-call engine, and that of the next one in the goto engine. The target behind a control
transfer is right in the switch engine only. The goto engine prints the word after it, and the
tail-call engine what `NNPC` held before.
-/

set_option autoImplicit false

namespace MipsEngines

open Lib StepMachine

/-- The line of the instruction at the program counter of `s`, with these addresses. -/
def lineOf (s : Machine) (pc nnpc : U32) : List String :=
  match currentWord s with
  | none => []
  | some w => [line w.2 w.1 pc nnpc]

/-- What its implementation prints. -/
def printedAt (s : Machine) : List String :=
  match currentWord s with
  | none => []
  | some w => printedBy w.2 s

section Lines

variable {host : Host}

section Step

variable {s s' : Machine} {w : U32 × Instr} (h : switchStep host s = .ok s')
  (hw : currentWord s = some w)

include h hw

/-- The registers of the pipe behind the implementation are those of the next round, one
increment ahead. -/
theorem handler_pipe : ∃ t, execute host w.2 w.1 s = .ok t ∧ incrementPc t = s' ∧
    t.reg MIPS_R_PC = s.reg MIPS_R_PC ∧ t.reg MIPS_R_NNPC = s'.reg MIPS_R_NPC := by
  obtain ⟨v, t, hv, ht, rfl⟩ := switchStep_currentWord h
  have hvw : v = w := Option.some.inj (hv.symm.trans hw)
  subst hvw
  refine ⟨t, ht, rfl, execute_pc ht, ?_⟩
  rw [incrementPc_eq]
  rfl

theorem emitted_switch :
    Engine.switch.disassembly.emitted host true w s
      = printedAt s ++ lineOf s (s.reg MIPS_R_PC) (s'.reg MIPS_R_NPC) := by
  obtain ⟨t, ht, -, hpc, hnnpc⟩ := handler_pipe h hw
  simp [Instrumentation.emitted, ht, Engine.disassembly, lineAt, printedAt, lineOf, hw, hpc,
    hnnpc]

theorem emitted_computedGoto :
    Engine.computedGoto.disassembly.emitted host true w s
      = printedAt s ++ lineOf s (s'.reg MIPS_R_PC) (s'.reg MIPS_R_NNPC) := by
  obtain ⟨t, ht, hnext, -, -⟩ := handler_pipe h hw
  simp [Instrumentation.emitted, ht, Engine.disassembly, lineAt, printedAt, lineOf, hw, hnext]

theorem emitted_tailCall :
    Engine.tailCall.disassembly.emitted host true w s
      = lineOf s (s.reg MIPS_R_PC) (s.reg MIPS_R_NNPC) ++ printedAt s := by
  obtain ⟨t, ht, -, -, -⟩ := handler_pipe h hw
  simp [Instrumentation.emitted, ht, Engine.disassembly, lineAt, printedAt, lineOf, hw]

end Step

variable {m : Nat → Machine} {n : Nat}

/-- What the handlers of a run put out, if one round puts out `lines`. -/
theorem emitted_run (h : SwitchRun host m n) {α : Type} {out : Instrumentation α}
    (lines : Machine → Machine → List α)
    (hround : ∀ s s' w, switchStep host s = .ok s' → currentWord s = some w →
      out.emitted host true w s = lines s s') :
    ((Engine.switch.handled ((List.range n).map m)).flatMap fun v => out.emitted host true v.1 v.2)
      = (List.range n).flatMap fun i => lines (m i) (m (i + 1)) := by
  induction n with
  | zero => rfl
  | succ n ih =>
      have hstep := h.step n (Nat.lt_succ_self n)
      have hbefore := ih ⟨fun i hi => h.running i (by omega), fun i hi => h.step i (by omega)⟩
      obtain ⟨w, hw, hone⟩ := switch_handled hstep
      rw [List.range_succ, List.map_append, handled_append, List.flatMap_append,
        List.flatMap_append, hbefore]
      show _ ++ (Engine.switch.handled [m n]).flatMap _ = _
      rw [hone]
      simp [hround _ _ w hstep hw]

end Lines

/-- The listings of a run of `n` instructions. The switch engine prints the address of each
instruction and what its handler leaves in `NNPC`. The goto engine prints both one increment
later. The tail-call engine prints them before the handler, up to the word it ends at. At a
control transfer the handler leaves its target in `NNPC`. -/
theorem listings (host : Host) (m : Nat → Machine) (n : Nat) (hrun : SwitchRun host m n) :
    (∃ ws, (Engine.switch.interpreterWith Engine.switch.disassembly host).Run ws (m 0, [])
      (m n, (List.range n).flatMap fun i => printedAt (m i)
        ++ lineOf (m i) ((m i).reg MIPS_R_PC) ((m (i + 1)).reg MIPS_R_NPC))) ∧
    (∃ ws, (Engine.computedGoto.interpreterWith Engine.computedGoto.disassembly host).Run ws
      (⟨.dispatch, m 0⟩, [])
      (⟨.dispatch, m n⟩, (List.range n).flatMap fun i => printedAt (m i)
        ++ lineOf (m i) ((m (i + 1)).reg MIPS_R_PC) ((m (i + 1)).reg MIPS_R_NNPC))) ∧
    (∀ w, currentWord (m n) = some w →
      ∃ ws, (Engine.tailCall.interpreterWith Engine.tailCall.disassembly host).Run ws
        (⟨.entry, m 0⟩, [])
        (⟨.call (.instr w.2) w.1, m n⟩, (List.range n).flatMap fun i =>
          lineOf (m i) ((m i).reg MIPS_R_PC) ((m i).reg MIPS_R_NNPC) ++ printedAt (m i))) ∧
    ∀ i < n, ∀ w, currentWord (m i) = some w → w.2.isControl = true →
      (m (i + 1)).reg MIPS_R_NPC = target w.2 w.1 (m i) ∧
        (m (i + 1)).reg MIPS_R_NNPC = target w.2 w.1 (m i) + 4 := by
  refine ⟨?_, ?_, ?_, ?_⟩
  · obtain ⟨ws, hws, -⟩ := (interpreterWith_logs Engine.switch.disassembly host .switch).run
      hrun.run []
    rw [flatMap_emitted, List.nil_append] at hws
    have hlines := emitted_run hrun _ fun s s' w h hw => emitted_switch h hw
    exact ⟨ws, hlines ▸ hws⟩
  · obtain ⟨vs, hvs, hhandled⟩ := goto_handled hrun.run
    obtain ⟨ws, hws, -⟩ :=
      (interpreterWith_logs Engine.computedGoto.disassembly host .computedGoto).run hvs []
    rw [flatMap_emitted, hhandled, List.nil_append] at hws
    have hlines := emitted_run hrun _ fun s s' w h hw => emitted_computedGoto h hw
    exact ⟨ws, hlines ▸ hws⟩
  · intro w hw
    obtain ⟨vs, hvs, hhandled⟩ := tail_handled hrun hw
    obtain ⟨ws, hws, -⟩ :=
      (interpreterWith_logs Engine.tailCall.disassembly host .tailCall).run hvs []
    rw [flatMap_emitted, hhandled, List.nil_append] at hws
    have hlines := emitted_run hrun (fun s _ => lineOf s (s.reg MIPS_R_PC) (s.reg MIPS_R_NNPC)
      ++ printedAt s) fun s s' w h hw => emitted_tailCall h hw
    exact ⟨ws, hlines ▸ hws⟩
  · intro i hi w hw hc
    have hpipe := (control_step (hrun.step i hi) hw hc).1
    exact ⟨congrArg Pipe.npc hpipe, congrArg Pipe.nnpc hpipe⟩

/-- A branch three words on from its delay slot, and the delay slot. The switch engine prints the
target, the goto engine the word after it, and the tail-call engine the word after the delay
slot. -/
theorem listings_program :
    (∃ ws t, (Engine.switch.interpreterWith Engine.switch.disassembly failingHost).Run ws
      (program 0x400000 [0x10000003, 0], [])
      (t, [line .beq 0x10000003 0x400000 0x400010, line .sll 0 0x400004 0x400014])) ∧
    (∃ ws t, (Engine.computedGoto.interpreterWith Engine.computedGoto.disassembly failingHost).Run
      ws (⟨.dispatch, program 0x400000 [0x10000003, 0]⟩, [])
      (t, [line .beq 0x10000003 0x400004 0x400014, line .sll 0 0x400010 0x400018])) ∧
    ∃ ws t, (Engine.tailCall.interpreterWith Engine.tailCall.disassembly failingHost).Run ws
      (⟨.entry, program 0x400000 [0x10000003, 0]⟩, [])
      (t, [line .beq 0x10000003 0x400000 0x400008, line .sll 0 0x400004 0x400014]) := by
  have hrun : SwitchRun failingHost (runStates failingHost (program 0x400000 [0x10000003, 0])) 2 :=
    switchRun_runStates (by decide +kernel) (by decide +kernel)
  obtain ⟨⟨us, hus⟩, ⟨vs, hvs⟩, htail, -⟩ := listings failingHost _ 2 hrun
  obtain ⟨ws, hws⟩ := htail (0, .sll) rfl
  exact ⟨⟨us, _, hus⟩, ⟨vs, _, hvs⟩, ⟨ws, _, hws⟩⟩

end MipsEngines
