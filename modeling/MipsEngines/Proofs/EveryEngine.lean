import MipsEngines.Model.Mains
import MipsEngines.Proofs.BlockCache
import MipsEngines.Proofs.SwitchBlocks

/-!
# `MipsEngines.Proofs.EveryEngine`: the four engines as one family

What all engines have in common. A step of any of them runs the handler of one
instruction and otherwise changes the pipe alone (`engine_step`). What is shown of the
handlers, up to the pipe, so holds for the runs of every engine.
-/

set_option autoImplicit false

namespace MipsEngines

open Lib StepMachine

namespace Engine

/-- The instruction whose handler the next step runs, if it runs one. -/
def executing : (engine : Engine) → engine.State → Option (U32 × Instr)
  | .switch, s => currentWord s
  | .computedGoto, g =>
      match g.control with
      | .label (.instr i) cir => some (cir, i)
      | _ => none
  | .tailCall, c =>
      match c.control with
      | .call (.instr i) cir => if c.machine.mips.halted then none else some (cir, i)
      | _ => none
  | .blocked, e =>
      match e.control with
      | .unrolled current ops _ => do
          let b ← e.blocks[current]?
          let op ← b.ops[ops]?
          let i ← op.op
          return (op.cir, i)
      | _ => none

end Engine

/-- What a step does to the machine: the handler of `executing`, if any, and then a change
of the pipe. -/
def HandlerThenPipe (host : Host) (executing : Option (U32 × Instr)) (s s' : Machine) : Prop :=
  match executing with
  | some w => ∃ t p, execute host w.2 w.1 s = .ok t ∧ s' = t.withPipe p
  | none => ∃ p, s' = s.withPipe p

theorem HandlerThenPipe.unchanged {host : Host} (s : Machine) : HandlerThenPipe host none s s :=
  ⟨s.pipe, (Machine.withPipe_pipe s).symm⟩

section Steps

variable {host : Host}

theorem switch_step {s s' : Machine} (h : switchStep host s = .ok s') :
    HandlerThenPipe host (currentWord s) s s' := by
  obtain ⟨w, t, hw, ht, rfl⟩ := switchStep_currentWord h
  rw [hw]
  exact ⟨t, t.pipe.increment, ht, incrementPc_eq t⟩

theorem goto_step {g g' : GotoState} (h : gotoStep host g = .ok g') :
    HandlerThenPipe host (Engine.executing .computedGoto g) g.machine g'.machine := by
  obtain ⟨control, s⟩ := g
  cases control with
  | dispatch =>
      cases hhalt : s.mips.halted with
      | true =>
          simp only [gotoStep, hhalt, if_true] at h
          cases h
          exact .unchanged s
      | false =>
          simp only [gotoStep, hhalt] at h
          rw [if_neg (by decide)] at h
          obtain ⟨cir, -, h⟩ := bind_eq_ok.mp h
          obtain ⟨l, -, h⟩ := bind_eq_ok.mp h
          cases h
          exact .unchanged s
  | label l cir =>
      cases l with
      | secondary =>
          obtain ⟨i, -, h⟩ := bind_eq_ok.mp h
          cases h
          exact .unchanged s
      | branch =>
          obtain ⟨i, -, h⟩ := bind_eq_ok.mp h
          cases h
          exact .unchanged s
      -- A handler and then the increment; the other steps only follow an entry.
      | instr i =>
          obtain ⟨t, ht, h⟩ := bind_eq_ok.mp h
          cases h
          exact ⟨t, t.pipe.increment, ht, incrementPc_eq t⟩
  | returned =>
      cases h
      exact .unchanged s

theorem tail_dispatch {s : Machine} {c : TailState} (h : tailDispatch s = .ok c) :
    c.machine = s := by
  obtain ⟨cir, -, h⟩ := bind_eq_ok.mp h
  obtain ⟨l, -, h⟩ := bind_eq_ok.mp h
  cases h
  rfl

theorem tail_step {c c' : TailState} (h : tailStep host c = .ok c') :
    HandlerThenPipe host (Engine.executing .tailCall c) c.machine c'.machine := by
  obtain ⟨control, s⟩ := c
  cases control with
  | entry =>
      rw [tail_dispatch h]
      exact .unchanged s
  | call l cir =>
      cases l with
      | secondary =>
          obtain ⟨i, -, h⟩ := bind_eq_ok.mp h
          cases h
          exact .unchanged s
      | branch =>
          obtain ⟨i, -, h⟩ := bind_eq_ok.mp h
          cases h
          exact .unchanged s
      | instr i =>
          cases hhalt : s.mips.halted with
          | true =>
              simp only [tailStep, hhalt, if_true] at h
              cases h
              simp only [Engine.executing, hhalt, if_true]
              exact .unchanged s
          | false =>
              simp only [tailStep, hhalt] at h
              rw [if_neg (by decide)] at h
              obtain ⟨t, ht, h⟩ := bind_eq_ok.mp h
              rw [tail_dispatch h]
              simp only [Engine.executing, hhalt]
              exact ⟨t, t.pipe.increment, ht, incrementPc_eq t⟩
  | returned =>
      cases h
      exact .unchanged s

theorem blocked_step {e e' : BlockedState} (h : blockedStep host e = .ok e') :
    HandlerThenPipe host (Engine.executing .blocked e) e.machine e'.machine := by
  obtain ⟨control, blocks, previous, s⟩ := e
  cases control with
  | outer =>
      cases hhalt : s.mips.halted with
      | true =>
          rw [blockedStep_outer_halted host previous s hhalt] at h
          cases h
          exact .unchanged s
      | false =>
          rcases blockedStep_outer host previous s hhalt h with ⟨_, -, rfl⟩ | ⟨_, -, -, rfl⟩
          · exact .unchanged s
          · exact .unchanged s
  | inner current =>
      obtain ⟨b, -, h⟩ := bind_eq_ok.mp h
      cases h
      -- The program counter is set ahead to the control transfer that ends the block.
      refine ⟨{ s.pipe with pc := s.reg MIPS_R_PC + 4 * (b.size - 3) }, ?_⟩
      have hset := preIncrement_withPipe b s s.pipe
      rwa [Machine.withPipe_pipe] at hset
  | unrolled current k case =>
      -- The only control that runs a handler.
      obtain ⟨b, hb, h⟩ := bind_eq_ok.mp h
      obtain ⟨op, hop, h⟩ := bind_eq_ok.mp h
      simp only [Engine.executing, derefBlock_eq_ok.mp hb, derefOp_eq_ok.mp hop,
        Option.bind_eq_bind, Option.bind_some]
      cases hi : op.op with
      | none => rw [hi] at h; cases h
      | some i =>
          rw [hi] at h
          obtain ⟨t, ht, h⟩ := bind_eq_ok.mp h
          cases h
          exact ⟨t, t.pipe, ht, (Machine.withPipe_pipe t).symm⟩
  | test current k =>
      obtain ⟨b, -, h⟩ := bind_eq_ok.mp h
      obtain ⟨op, -, h⟩ := bind_eq_ok.mp h
      cases h
      exact .unchanged s
  | leave current =>
      obtain ⟨b, -, h⟩ := bind_eq_ok.mp h
      cases h
      -- The program counter is set to the exit of the block.
      refine ⟨{ s.pipe with pc := s.reg MIPS_R_NNPC }, ?_⟩
      have hset := setReg_pc_withPipe s s.pipe (s.reg MIPS_R_NNPC)
      rwa [Machine.withPipe_pipe] at hset
  | returned =>
      cases h
      exact .unchanged s

/-- A step of any engine. -/
theorem engine_step (engine : Engine) {st st' : engine.State}
    (h : (engine.interpreter host).step st = .ok st') :
    HandlerThenPipe host (engine.executing st) (engine.machine st) (engine.machine st') := by
  cases engine with
  | switch => exact switch_step h
  | computedGoto => exact goto_step h
  | tailCall => exact tail_step h
  | blocked => exact blocked_step h

end Steps

end MipsEngines
