import MipsEngines.Model.Blocked
import MipsEngines.Model.Loader

/-!
# `MipsEngines.Model.Mains`: the four executables

The `main` of `switch.c`, `computed-goto.c`, `tail-call.c` and `blocked.c`: an empty
machine, `memory_create`, `loader_elf`, the interpreter, and the value returned. They
differ in the interpreter they call and in what they return. The argument count is taken
to be right, and `memory_delete` frees what nobody reads again.
-/

set_option autoImplicit false

namespace MipsEngines

open Lib

/-- The four executables. -/
inductive Engine
  | switch
  | computedGoto
  | tailCall
  | blocked
  deriving DecidableEq, Repr

namespace Engine

/-- The states of an engine. -/
abbrev State : Engine → Type
  | .switch => Machine
  | .computedGoto => GotoState
  | .tailCall => TailState
  | .blocked => BlockedState

/-- The engine as a machine that takes steps. -/
def interpreter (host : Host) : (engine : Engine) → StepMachine Fault engine.State
  | .switch => interpreterSwitch host
  | .computedGoto => interpreterComputedGoto host
  | .tailCall => interpreterTailCall host
  | .blocked => interpreterBlocked host

/-- The state an engine is started in. -/
def start : (engine : Engine) → Machine → engine.State
  | .switch, s => s
  | .computedGoto, s => ⟨.dispatch, s⟩
  | .tailCall, s => ⟨.entry, s⟩
  | .blocked, s => .start s

/-- The machine an engine works on. -/
def machine : (engine : Engine) → engine.State → Machine
  | .switch, s => s
  | .computedGoto, g => g.machine
  | .tailCall, c => c.machine
  | .blocked, e => e.machine

/-- What `main` returns once the interpreter has: `mips.status`, or `0` in `blocked.c`. -/
def mainReturn : Engine → Mips → U32
  | .switch, mips => mips.status
  | .computedGoto, mips => mips.status
  | .tailCall, mips => mips.status
  | .blocked, _ => 0

end Engine

/-- The machine of each `main` before `loader_elf`. -/
def Machine.initial : Machine := ⟨Mips.zero, memoryCreate Memory.empty, []⟩

/-- The process ends with exit code `code`: the host keeps the low byte of what `main`
returns. -/
def Engine.ExitsWith (engine : Engine) (host : Host) (elf : List U8) (fresh : Nat → Nat → U8)
    (code : Nat) : Prop :=
  ∃ s st, loaderElf elf fresh .initial = .ok s ∧
    (engine.interpreter host).Returns (engine.start s) st ∧
    code = (engine.mainReturn (engine.machine st).mips).toNat % 256

end MipsEngines
