import MipsEngines.Model.Mains

/-!
# `MipsEngines.Model.Builds`: the `__DISASSEMBLE__` and `__PROFILE__` builds

The macro `X` of each engine has three forms. The plain one is that of `Model.Engines` and
`Model.Blocked`. With `__DISASSEMBLE__` every instruction prints a line, and with `__PROFILE__`
it is put between two calls that the Pin tool of `pintool/` hooks. Both put output around the
implementation, so an engine is written once more, with an `Instrumentation` for what goes where,
and the builds are two instances of it.

The block engine differs in the `__DISASSEMBLE__` build in one more thing: its handlers step the
program counter, and the block does not.
-/

set_option autoImplicit false

namespace MipsEngines

open Lib

/-! ### Output around an implementation -/

/-- What an `X` puts out for an instruction, at four places: ahead of the implementation, in it,
behind it, and behind `INCREMENT_PC`. Each sees the registers as they are there. -/
structure Instrumentation (α : Type) where
  before : Instr → (cir : U32) → Machine → List α
  during : Instr → Machine → List α
  after : Instr → (cir : U32) → Machine → List α
  late : Instr → (cir : U32) → Machine → List α

section With

variable {α : Type} (out : Instrumentation α) (host : Host)

/-- The implementation with its output. -/
def executeWith (i : Instr) (cir : U32) (s : Machine) : Except Fault (Machine × List α) := do
  let t ← execute host i cir s
  return (t, out.before i cir s ++ out.during i s ++ out.after i cir t)

/-- The implementation, `INCREMENT_PC`, and their output. -/
def executeIncrementWith (i : Instr) (cir : U32) (s : Machine) :
    Except Fault (Machine × List α) := do
  let (t, printed) ← executeWith out host i cir s
  let t := incrementPc t
  return (t, printed ++ out.late i cir t)

/-- One round of the loop of `interpreter_switch`. -/
def switchStepWith (p : Machine × List α) : Except Fault (Machine × List α) := do
  let (s, printed) := p
  let cir ← fetch s
  match switchDispatch cir with
  | none => .error .abort
  | some i =>
      let (t, more) ← executeIncrementWith out host i cir s
      return (t, printed ++ more)

/-- From one label of `interpreter_computed_goto` to the next. -/
def gotoStepWith (p : GotoState × List α) : Except Fault (GotoState × List α) :=
  let (g, printed) := p
  match g.control with
  | .label (.instr i) cir => do
      let (t, more) ← executeIncrementWith out host i cir g.machine
      return (⟨.dispatch, t⟩, printed ++ more)
  | _ => (gotoStep host g).map fun g => (g, printed)

/-- From one call of `interpreter_tail_call` to the next. -/
def tailStepWith (p : TailState × List α) : Except Fault (TailState × List α) :=
  let (c, printed) := p
  match c.control with
  | .call (.instr i) cir =>
      if c.machine.mips.halted then .ok (⟨.returned, c.machine⟩, printed)
      else do
        let (t, more) ← executeIncrementWith out host i cir c.machine
        let c ← tailDispatch t
        return (c, printed ++ more)
  | _ => (tailStep host c).map fun c => (c, printed)

/-- A step of `interpreter_blocked`. Its handlers have no `INCREMENT_PC`. -/
def blockedStepWith (p : BlockedState × List α) : Except Fault (BlockedState × List α) :=
  let (e, printed) := p
  match e.control with
  | .unrolled current ops case => do
      let b ← derefBlock e.blocks current
      let op ← derefOp b ops
      match op.op with
      | none => .error .emptyEntry
      | some i => do
          let (t, more) ← executeWith out host i op.cir e.machine
          return ({ e with
            control := if case = 1 then .test current (ops + 1)
              else .unrolled current (ops + 1) (case - 1)
            machine := t }, printed ++ more)
  | _ => (blockedStep host e).map fun e => (e, printed)

/-- The engines with output. -/
def Engine.interpreterWith : (engine : Engine) → StepMachine Fault (engine.State × List α)
  | .switch => ⟨fun p => (interpreterSwitch host).done p.1, switchStepWith out host⟩
  | .computedGoto => ⟨fun p => (interpreterComputedGoto host).done p.1, gotoStepWith out host⟩
  | .tailCall => ⟨fun p => (interpreterTailCall host).done p.1, tailStepWith out host⟩
  | .blocked => ⟨fun p => (interpreterBlocked host).done p.1, blockedStepWith out host⟩

end With

/-! ### Hooks -/

/-- The functions of `benchmark.c`, which do nothing but be called. -/
inductive Hook
  | enterProcessing
  | exitProcessing
  | enterDispatching
  | exitDispatching
  deriving DecidableEq, Repr

/-- `PROFILE_ENTER_INSTRUCTION` and `PROFILE_EXIT_INSTRUCTION`. -/
def profiling : Instrumentation Hook where
  before _ _ _ := [.enterProcessing]
  during _ _ := []
  after _ _ _ := [.exitProcessing]
  late _ _ _ := []

/-- The hooks of a `main`: `PROFILE_ENTER_INTERPRETER`, those of the interpreter, and
`PROFILE_EXIT_INTERPRETER`. -/
def mainHooks (interpreter : List Hook) : List Hook :=
  [.enterDispatching] ++ interpreter ++ [.exitDispatching]

/-! ### The Pin tool -/

/-- What Pin sees of the process: an instruction of the host, or a hook that is called. -/
inductive PinEvent
  | instruction
  | call (hook : Hook)
  deriving DecidableEq, Repr

/-- The global variables of `InterpreterEfficiency.cpp`. The counts are `UINT64` there. -/
structure Pintool where
  dispatchingEnabled : Bool
  processingEnabled : Bool
  dispatchingCount : Nat
  processingCount : Nat
  deriving DecidableEq, Repr

namespace Pintool

def start : Pintool := ⟨false, false, 0, 0⟩

/-- `CountInstruction`. -/
def countInstruction (p : Pintool) : Pintool :=
  let p :=
    if p.dispatchingEnabled && !p.processingEnabled then
      { p with dispatchingCount := p.dispatchingCount + 1 }
    else p
  if p.processingEnabled then { p with processingCount := p.processingCount + 1 } else p

/-- The routines `HookProfilingFunctions` puts in place of the stubs: `SetProcessingEnabled` and
`SetDispatchingEnabled`. The four stubs are four routines, which a build that folds functions of
one body would not keep apart. -/
def hooked (p : Pintool) : Hook → Pintool
  | .enterProcessing => { p with processingEnabled := true }
  | .exitProcessing => { p with processingEnabled := false }
  | .enterDispatching => { p with dispatchingEnabled := true }
  | .exitDispatching => { p with dispatchingEnabled := false }

def event (p : Pintool) : PinEvent → Pintool
  | .instruction => p.countInstruction
  | .call hook => p.hooked hook

/-- The tool at the end of a process. -/
def run (events : List PinEvent) : Pintool := events.foldl event start

end Pintool

/-! ### Lines of the listing -/

/-- `%x`, and `%0wx` with a width `w`. -/
def hex (w n : Nat) : String :=
  let digits := Nat.toDigits 16 n
  String.ofList (List.replicate (w - digits.length) '0' ++ digits)

/-- `register_names`. -/
def registerNames : List String :=
  ["%zr", "%at", "%v0", "%v1", "%a0", "%a1", "%a2", "%a3", "%t0", "%t1", "%t2", "%t3", "%t4", "%t5",
    "%t6", "%t7", "%s0", "%s1", "%s2", "%s3", "%s4", "%s5", "%s6", "%s7", "%t8", "%t9", "%k0", "%k1",
    "%gp", "%sp", "%fp", "%ra", "%hi", "%lo", "%pc", "%npc", "%nnpc", "%cir", "", ""]

def registerName (r : Reg) : String := registerNames.getD r.val ""

/-- `#name`. -/
def Instr.name : Instr → String
  | .blez => "blez" | .bgtz => "bgtz" | .j => "j" | .jal => "jal" | .beq => "beq" | .bne => "bne"
  | .addi => "addi" | .addiu => "addiu" | .slti => "slti" | .sltiu => "sltiu" | .andi => "andi"
  | .ori => "ori" | .xori => "xori" | .lui => "lui" | .lb => "lb" | .lh => "lh" | .lwl => "lwl"
  | .lw => "lw" | .lbu => "lbu" | .lhu => "lhu" | .lwr => "lwr" | .ll => "ll" | .sb => "sb"
  | .sh => "sh" | .swl => "swl" | .sw => "sw" | .sc => "sc" | .swr => "swr" | .rdhwr => "rdhwr"
  | .brk => "brk" | .sll => "sll" | .srl => "srl" | .sra => "sra" | .sllv => "sllv"
  | .srlv => "srlv" | .srav => "srav" | .jr => "jr" | .jalr => "jalr" | .syscall => "syscall"
  | .special => "special" | .mfhi => "mfhi" | .mflo => "mflo" | .mthi => "mthi" | .mtlo => "mtlo"
  | .mult => "mult" | .multu => "multu" | .div => "div" | .divu => "divu" | .add => "add"
  | .addu => "addu" | .sub => "sub" | .subu => "subu" | .slt => "slt" | .sltu => "sltu"
  | .and => "and" | .or => "or" | .xor => "xor" | .nor => "nor" | .bltz => "bltz" | .bgez => "bgez"
  | .bltzal => "bltzal" | .bgezal => "bgezal"

/-- `ITP_FORMAT_*`. -/
inductive Formatter
  | shiftImm | shiftReg | jr | jalr | mf | mt | syscall | multDiv | aluReg | branchGeneric | jJal
  | branchEqNe | aluImm | luiImm | loadImm | storeImm | rdhwr
  deriving DecidableEq, Repr

/-- The second column of the instruction lists. -/
def Instr.formatter : Instr → Formatter
  | .blez | .bgtz | .bltz | .bgez | .bltzal | .bgezal => .branchGeneric
  | .j | .jal => .jJal
  | .beq | .bne => .branchEqNe
  | .addi | .addiu | .slti | .sltiu | .andi | .ori | .xori => .aluImm
  | .lui => .luiImm
  | .lb | .lh | .lwl | .lw | .lbu | .lhu | .lwr | .ll => .loadImm
  | .sb | .sh | .swl | .sw | .sc | .swr => .storeImm
  | .rdhwr => .rdhwr
  | .brk | .syscall | .special => .syscall
  | .sll | .srl | .sra => .shiftImm
  | .sllv | .srlv | .srav => .shiftReg
  | .jr => .jr
  | .jalr => .jalr
  | .mfhi | .mflo => .mf
  | .mthi | .mtlo => .mt
  | .mult | .multu | .div | .divu => .multDiv
  | .add | .addu | .sub | .subu | .slt | .sltu | .and | .or | .xor | .nor => .aluReg

/-- What a formatter prints behind the name. Only the transfers with an immediate print a target,
which they take from `NNPC`. -/
def Formatter.operands (cir nnpc : U32) : Formatter → String
  | shiftImm =>
      registerName (rd cir) ++ ", " ++ registerName (rt cir) ++ ", 0x" ++ hex 2 (shField cir)
  | shiftReg | aluReg =>
      registerName (rd cir) ++ ", " ++ registerName (rt cir) ++ ", " ++ registerName (rs cir)
  | jr | mt => registerName (rs cir)
  | jalr => registerName (rd cir) ++ ", " ++ registerName (rs cir)
  | mf => registerName (rd cir)
  -- The text of the format, not a value.
  | syscall => "imm20"
  | multDiv => registerName (rs cir) ++ ", " ++ registerName (rt cir)
  | branchGeneric =>
      registerName (rs cir) ++ ", " ++ toString (imm16Field cir).toInt
        ++ " (0x" ++ hex 8 nnpc.toNat ++ ")"
  | jJal => "0x" ++ hex 7 (imm26Field cir).toNat ++ " (0x" ++ hex 8 nnpc.toNat ++ ")"
  | branchEqNe =>
      registerName (rs cir) ++ ", " ++ registerName (rt cir) ++ ", "
        ++ toString (imm16Field cir).toInt ++ " (0x" ++ hex 8 nnpc.toNat ++ ")"
  | aluImm =>
      registerName (rt cir) ++ ", " ++ registerName (rs cir) ++ ", "
        ++ toString (imm16Field cir).toInt
  | luiImm => registerName (rt cir) ++ ", 0x" ++ hex 4 (imm16Field cir).toNat
  | loadImm | storeImm =>
      registerName (rt cir) ++ ", 0x" ++ hex 4 (imm16Field cir).toNat
        ++ "[" ++ registerName (rs cir) ++ "]"
  | rdhwr => registerName (rt cir) ++ ", " ++ toString (rd cir).val

/-- The line of an instruction: `formatter(#name)` where `PC` and `NNPC` are these. -/
def line (i : Instr) (cir pc nnpc : U32) : String :=
  "  " ++ hex 0 pc.toNat ++ ":\t" ++ hex 8 cir.toNat ++ "\t" ++ i.name ++ " "
    ++ i.formatter.operands cir nnpc ++ "\n"

def lineAt (i : Instr) (cir : U32) (s : Machine) : List String :=
  [line i cir (s.reg MIPS_R_PC) (s.reg MIPS_R_NNPC)]

/-- What an implementation prints itself: `mips_syscall_mprotect` does. -/
def printedBy (i : Instr) (s : Machine) : List String :=
  if i = .syscall ∧ s.reg MIPS_R_V0 = NR_mprotect then
    ["sys_mprotect: addr=0x" ++ hex 8 (s.reg MIPS_R_A0).toNat ++ ", len="
      ++ toString (s.reg MIPS_R_A1).toNat ++ ", prot=" ++ toString (s.reg MIPS_R_A2).toInt
      ++ " (Faking Success)\n"]
  else []

/-- The `X` of each engine with `__DISASSEMBLE__`: the line is printed behind the implementation
by the switch engine, behind `INCREMENT_PC` by the goto engine, and ahead of the implementation
by the others. -/
def Engine.disassembly : Engine → Instrumentation String
  | .switch =>
      { before := fun _ _ _ => [], during := printedBy, after := lineAt, late := fun _ _ _ => [] }
  | .computedGoto =>
      { before := fun _ _ _ => [], during := printedBy, after := fun _ _ _ => [], late := lineAt }
  | .tailCall | .blocked =>
      { before := lineAt, during := printedBy, after := fun _ _ _ => [], late := fun _ _ _ => [] }

/-! ### The block engine with `__DISASSEMBLE__` -/

/-- A step of `interpreter_blocked`, where a handler ends with `mips->r[MIPS_R_PC] += 4` and a
block starts without its `mips->r[MIPS_R_PC] += 4*(current->size - 3)`. -/
def blockedStepDisassemble (host : Host) (p : BlockedState × List String) :
    Except Fault (BlockedState × List String) :=
  let (e, printed) := p
  match e.control with
  | .inner current => do
      let b ← derefBlock e.blocks current
      return ({ e with control := .unrolled current 0 (firstCase b) }, printed)
  | .unrolled current ops case => do
      let b ← derefBlock e.blocks current
      let op ← derefOp b ops
      match op.op with
      | none => .error .emptyEntry
      | some i => do
          let (t, more) ← executeWith Engine.blocked.disassembly host i op.cir e.machine
          return ({ e with
            control := if case = 1 then .test current (ops + 1)
              else .unrolled current (ops + 1) (case - 1)
            machine := t.setReg MIPS_R_PC (t.reg MIPS_R_PC + 4) }, printed ++ more)
  | _ => (blockedStep host e).map fun e => (e, printed)

/-- `interpreter_blocked` with `__DISASSEMBLE__`. -/
def interpreterBlockedDisassemble (host : Host) :
    StepMachine Fault (BlockedState × List String) where
  done p := (interpreterBlocked host).done p.1
  step := blockedStepDisassemble host

end MipsEngines
