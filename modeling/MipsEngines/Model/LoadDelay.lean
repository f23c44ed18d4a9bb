import MipsEngines.Model.Engines

/-!
# `MipsEngines.Model.LoadDelay`: the switch engine with `LOAD_DELAY_ENABLE`

`common.h` offers a second build, in which `struct mips` has two more fields and the load
implementations of `instructions.h` take the other arm of an `#ifdef`. A load of that build
puts its register and value in `load_d` and `load_v`. They are to be stored by
`ITP_LOAD_DELAY`, which ends the operand part of every other instruction type. Its text
stands under `__LOAD_DELAY__`, a macro that no file defines.
-/

set_option autoImplicit false

namespace MipsEngines

open Lib

/-- `struct mips` with the fields of the second build, and what goes with it. -/
structure DelayMachine where
  machine : Machine
  loadD : U32
  loadV : U32

/-- `ITP_LOAD_DELAY`. `LOAD_DELAY_ENABLE` does not define `__LOAD_DELAY__`, so this is the
`#else` arm, which is empty. -/
def itpLoadDelay (d : DelayMachine) : DelayMachine := d

/-- `ITP_TYPE_LOAD_IMM` with `ITP_LB_IMPL`, `ITP_LH_IMPL`, `ITP_LW_IMPL`, `ITP_LBU_IMPL` or
`ITP_LHU_IMPL`. They read what they read in the other build. -/
def typeLoadImmDelayed (cir : U32) (d : DelayMachine)
    (impl : Memory → (address old : U32) → Except Fault U32) : Except Fault DelayMachine := do
  let s := d.machine
  let read ← impl s.memory (computeAddress cir s) (s.reg (rt cir))
  let target := BitVec.ofNat 32 (rt cir).val
  let d := if d.loadD ≠ target then itpLoadDelay d else d
  return { d with loadD := target, loadV := read }

/-- `ITP_TYPE_LOAD_IMM` with `ITP_LWL_IMPL` or `ITP_LWR_IMPL`, both marked `TODO`: half a word
is read, into the low half of `read`, and `load_d` is left as it is. -/
def typeLoadImmTodo (cir : U32) (d : DelayMachine) : Except Fault DelayMachine := do
  let s := d.machine
  let read ← memoryReadU16 s.memory (computeAddress cir s &&& ~~~3)
  let target := BitVec.ofNat 32 (rt cir).val
  let d := if d.loadD ≠ target then itpLoadDelay d else d
  return { d with loadV := read.setWidth 32 }

/-- The loads: the rows with `ITP_TYPE_LOAD_IMM`. -/
def Instr.isLoad : Instr → Bool
  | .lb | .lh | .lwl | .lw | .lbu | .lhu | .lwr | .ll => true
  | _ => false

/-- What the handler of an instruction does in this build. Apart from the loads the
implementations are the same in both. -/
def executeDelayed (host : Host) (i : Instr) (cir : U32) (d : DelayMachine) :
    Except Fault DelayMachine :=
  match i with
  | .lb => typeLoadImmDelayed cir d itpLbImpl
  | .lh => typeLoadImmDelayed cir d itpLhImpl
  | .lw => typeLoadImmDelayed cir d itpLwImpl
  | .lbu => typeLoadImmDelayed cir d itpLbuImpl
  | .lhu => typeLoadImmDelayed cir d itpLhuImpl
  | .ll => typeLoadImmDelayed cir d itpLwImpl
  | .lwl => typeLoadImmTodo cir d
  | .lwr => typeLoadImmTodo cir d
  | i => do
      -- `ITP_LOAD_DELAY` comes after the operands are read. Empty, it may as well come first.
      let d := itpLoadDelay d
      let s ← execute host i cir d.machine
      return { d with machine := s }

/-- One round of the loop of `interpreter_switch`. -/
def switchStepDelayed (host : Host) (d : DelayMachine) : Except Fault DelayMachine := do
  let cir ← fetch d.machine
  match switchDispatch cir with
  | none => .error .abort
  | some i =>
      let d ← executeDelayed host i cir d
      return { d with machine := incrementPc d.machine }

/-- `interpreter_switch` in the second build. -/
def interpreterSwitchDelayed (host : Host) : StepMachine Fault DelayMachine where
  done d := d.machine.mips.halted
  step := switchStepDelayed host

end MipsEngines
