import MipsEngines.Lib.StepMachine
import MipsEngines.Model.Dispatch

/-!
# `MipsEngines.Model.Engines`: the three engines without a code cache

`interpreter_switch`, `interpreter_computed_goto` and `interpreter_tail_call`, each
as a `StepMachine`. One step of the switch engine is one round of its loop. The
other two have no loop: their states say which label control is at, or which
handler is being called, and one step is one jump or one call.
-/

set_option autoImplicit false

namespace MipsEngines

open Lib

/-- `memory_read_u32(memory, mips->r[MIPS_R_PC], &cir)`. -/
def fetch (s : Machine) : Except Fault U32 := memoryReadU32 s.memory (s.reg MIPS_R_PC)

/-! ### `switch.c` -/

/-- One round of the loop of `interpreter_switch`. -/
def switchStep (host : Host) (s : Machine) : Except Fault Machine := do
  let cir ← fetch s
  match switchDispatch cir with
  -- A `default` arm: a message, then `abort()`.
  | none => .error .abort
  | some i =>
      let s ← execute host i cir s
      return incrementPc s

/-- `interpreter_switch`. -/
def interpreterSwitch (host : Host) : StepMachine Fault Machine where
  done s := s.mips.halted
  step := switchStep host

/-! ### `computed-goto.c` -/

/-- Where control is: at a `DISPATCH`, at a label with the fetched word in `cir`,
or out of the function. -/
inductive GotoControl
  | dispatch
  | label (l : Label) (cir : U32)
  | returned

structure GotoState where
  control : GotoControl
  machine : Machine

/-- From one label to the next. -/
def gotoStep (host : Host) (g : GotoState) : Except Fault GotoState :=
  let s := g.machine
  match g.control with
  | .dispatch =>
      if s.mips.halted then .ok ⟨.returned, s⟩
      else do
        let cir ← fetch s
        let l ← jumpThrough primary (opField cir)
        return ⟨.label l cir, s⟩
  | .label .secondary cir => do
      let i ← jumpThrough secondary (fnField cir)
      return ⟨.label (.instr i) cir, s⟩
  | .label .branch cir => do
      let i ← jumpThrough branch (rtField cir)
      return ⟨.label (.instr i) cir, s⟩
  | .label (.instr i) cir => do
      let s ← execute host i cir s
      -- `INCREMENT_PC` and the next `DISPATCH` end every label.
      return ⟨.dispatch, incrementPc s⟩
  | .returned => .ok g

/-- `interpreter_computed_goto`, started at `⟨.dispatch, s⟩`. -/
def interpreterComputedGoto (host : Host) : StepMachine Fault GotoState where
  done g := match g.control with | .returned => true | _ => false
  step := gotoStep host

/-- Control is at the label of an instruction. -/
def GotoState.atInstr (g : GotoState) : Bool :=
  match g.control with | .label (.instr _) _ => true | _ => false

/-! ### `tail-call.c` -/

/-- Where control is: before the first fetch, at the entry of a handler with the
fetched word as its argument, or back in the caller. -/
inductive TailControl
  | entry
  | call (l : Label) (cir : U32)
  | returned

structure TailState where
  control : TailControl
  machine : Machine

/-- The end of `interpreter_tail_call` and of every handler: fetch and call
through `primary`. -/
def tailDispatch (s : Machine) : Except Fault TailState := do
  let cir ← fetch s
  let l ← jumpThrough primary (opField cir)
  return ⟨.call l cir, s⟩

/-- From one call to the next. A handler looks at `halted` before it does
anything else. -/
def tailStep (host : Host) (c : TailState) : Except Fault TailState :=
  let s := c.machine
  match c.control with
  | .entry => tailDispatch s
  | .call .secondary cir => do
      let i ← jumpThrough secondary (fnField cir)
      return ⟨.call (.instr i) cir, s⟩
  | .call .branch cir => do
      let i ← jumpThrough branch (rtField cir)
      return ⟨.call (.instr i) cir, s⟩
  | .call (.instr i) cir =>
      if s.mips.halted then .ok ⟨.returned, s⟩
      else do
        let s ← execute host i cir s
        -- The next word is fetched here, before its handler looks at `halted`.
        tailDispatch (incrementPc s)
  | .returned => .ok c

/-- `interpreter_tail_call`, started at `⟨.entry, s⟩`. Its calls are jumps, as an optimised build
makes them, so they take no stack. -/
def interpreterTailCall (host : Host) : StepMachine Fault TailState where
  done c := match c.control with | .returned => true | _ => false
  step := tailStep host

/-- Control is at the entry of an instruction's handler. -/
def TailState.atInstr (c : TailState) : Bool :=
  match c.control with | .call (.instr _) _ => true | _ => false

/-! ### A machine with a program

For running an engine on a concrete input. -/

/-- The page `words` lie in when they are stored from `address` on, zero elsewhere. -/
def programPage (address : U32) (words : List U32) : Page := fun i =>
  let o := (pageOffset address).val
  if o ≤ i.val then byteOf (words.getD ((i.val - o) / 4) 0) ((i.val - o) % 4) else 0

/-- A machine about to run `words` from `address`, with no other page mapped and
all registers zero. The program counter pipeline is set as `loader_load_pc`
sets it. -/
def program (address : U32) (words : List U32) : Machine where
  mips := ((Mips.zero.set MIPS_R_PC address).set MIPS_R_NPC (address + 4)).set MIPS_R_NNPC
    (address + 8)
  memory := { memoryCreate Memory.empty with
    pageTables := fun t =>
      if t = ptIdx address then
        some fun e => if e = peIdx address then some (programPage address words) else none
      else none }
  calls := []

/-- Two blocks, one that counts in `$t0` and one in `$t1`, and each branches to the other. -/
def pingPong : Machine :=
  program 0x400000 [0x25080001, 0x10000001, 0, 0x25290001, 0x1000fffb, 0]

/-- A host on which every call fails. -/
def failingHost : Host := fun _ call =>
  match call with
  | .read _ _ => ⟨none, fun _ => 0, fun _ => 0⟩
  | .write _ _ => (none : Option (Fin _))
  | .open _ _ _ => (-1 : U32)
  | .close _ => (-1 : U32)
  | .lseek _ _ _ => (-1 : U64)
  | .ioctl _ => (none : Option Winsize)
  | .clockGettime _ => (none : Option Timespec)

end MipsEngines
