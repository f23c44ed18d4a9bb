import MipsEngines.Lib.BitField
import MipsEngines.Model.Dispatch

/-!
# `MipsEngines.Model.Assembler`: the assembler macros of the tests

`ASSEMBLE_*` of `tests/test.h`, with which every test writes its program, and the operands
that the types of `instructions.h` take out of a word. A macro gets the code of its
instruction, a value of the `OP`, `FN` or `RT` field, and the operands.
-/

set_option autoImplicit false

namespace MipsEngines

open Lib.BitField

/-! ### The macros

`((u32) (V & MASK) << SHIFT)` is `put SHIFT MASK v`. -/

def assembleAluReg (fn rs rt rd : U32) : U32 :=
  put FN_SHIFT FN_MASK fn ||| put RT_SHIFT RT_MASK rt ||| put RD_SHIFT RD_MASK rd |||
    put RS_SHIFT RS_MASK rs

def assembleAluImm (op rs rt imm16 : U32) : U32 :=
  put OP_SHIFT OP_MASK op ||| put RS_SHIFT RS_MASK rs ||| put RT_SHIFT RT_MASK rt |||
    put IMM16_SHIFT IMM16_MASK imm16

def assembleBranchEqNe (op rs rt imm16 : U32) : U32 :=
  put OP_SHIFT OP_MASK op ||| put RS_SHIFT RS_MASK rs ||| put RT_SHIFT RT_MASK rt |||
    put IMM16_SHIFT IMM16_MASK imm16

def assembleBranchGeneric (rt rs imm16 : U32) : U32 :=
  put OP_SHIFT OP_MASK 0x1 ||| put RS_SHIFT RS_MASK rs ||| put RT_SHIFT RT_MASK rt |||
    put IMM16_SHIFT IMM16_MASK imm16

def assembleBranchBlezBgtz (op rs imm16 : U32) : U32 :=
  put OP_SHIFT OP_MASK op ||| put RS_SHIFT RS_MASK rs ||| put IMM16_SHIFT IMM16_MASK imm16

def assembleJJal (op imm26 : U32) : U32 :=
  put OP_SHIFT OP_MASK op ||| put IMM26_SHIFT IMM26_MASK imm26

def assembleJalr (fn rs rd : U32) : U32 :=
  put FN_SHIFT FN_MASK fn ||| put RD_SHIFT RD_MASK rd ||| put RS_SHIFT RS_MASK rs

def assembleJr (fn rs : U32) : U32 :=
  put FN_SHIFT FN_MASK fn ||| put RS_SHIFT RS_MASK rs

def assembleLoadImm (op rs rt imm16 : U32) : U32 :=
  put OP_SHIFT OP_MASK op ||| put RS_SHIFT RS_MASK rs ||| put RT_SHIFT RT_MASK rt |||
    put IMM16_SHIFT IMM16_MASK imm16

def assembleLuiImm (op rt imm16 : U32) : U32 :=
  put OP_SHIFT OP_MASK op ||| put RT_SHIFT RT_MASK rt ||| put IMM16_SHIFT IMM16_MASK imm16

def assembleMf (fn rd : U32) : U32 :=
  put FN_SHIFT FN_MASK fn ||| put RD_SHIFT RD_MASK rd

def assembleMt (fn rs : U32) : U32 :=
  put FN_SHIFT FN_MASK fn ||| put RS_SHIFT RS_MASK rs

/-- The code goes in the `OP` field. The instructions are told apart by `FN`. -/
def assembleMultDiv (op rs rt : U32) : U32 :=
  put OP_SHIFT OP_MASK op ||| put RT_SHIFT RT_MASK rt ||| put RS_SHIFT RS_MASK rs

def assembleShiftImm (fn rd rt sh : U32) : U32 :=
  put FN_SHIFT FN_MASK fn ||| put RT_SHIFT RT_MASK rt ||| put RD_SHIFT RD_MASK rd |||
    put SH_SHIFT SH_MASK sh

def assembleShiftReg (fn rd rt rs : U32) : U32 :=
  put FN_SHIFT FN_MASK fn ||| put RT_SHIFT RT_MASK rt ||| put RD_SHIFT RD_MASK rd |||
    put RS_SHIFT RS_MASK rs

def assembleStoreImm (op rt rs imm16 : U32) : U32 :=
  put OP_SHIFT OP_MASK op ||| put RS_SHIFT RS_MASK rs ||| put RT_SHIFT RT_MASK rt |||
    put IMM16_SHIFT IMM16_MASK imm16

/-- `IMM20_SHIFT` is 0, as `FN_SHIFT` is. -/
def assembleSyscall (fn imm20 : U32) : U32 :=
  put FN_SHIFT FN_MASK fn ||| put IMM20_SHIFT IMM20_MASK imm20

abbrev ASSEMBLE_NOP : U32 := 0x00000000
abbrev ASSEMBLE_HALT : U32 := 0x0000000D

/-! ### Operands -/

/-- The fields of a word that an instruction type reads, `none` for those that it does not. -/
structure Operands where
  rs : Option Reg := none
  rt : Option Reg := none
  rd : Option Reg := none
  sh : Option Nat := none
  imm16 : Option U16 := none
  imm20 : Option U32 := none
  imm26 : Option U32 := none
  deriving DecidableEq

/-- The operands that `ITP_TYPE_*` takes out of the word. -/
def Template.operands (cir : U32) : Template → Operands
  | .shiftImm _ => { rt := rt cir, rd := rd cir, sh := shField cir }
  | .shiftReg _ => { rs := rs cir, rt := rt cir, rd := rd cir }
  | .jr => { rs := rs cir }
  | .jalr => { rs := rs cir, rd := rd cir }
  | .mf _ => { rd := rd cir }
  | .mt _ => { rs := rs cir }
  | .syscall => { imm20 := imm20Field cir }
  | .special => { imm20 := imm20Field cir }
  | .brk => { imm20 := imm20Field cir }
  | .multDiv _ => { rs := rs cir, rt := rt cir }
  | .aluReg _ => { rs := rs cir, rt := rt cir, rd := rd cir }
  | .branchGeneric _ _ => { rs := rs cir, imm16 := imm16Field cir }
  | .jJal _ => { imm26 := imm26Field cir }
  | .branchEqNe _ => { rs := rs cir, rt := rt cir, imm16 := imm16Field cir }
  | .aluImm _ => { rs := rs cir, rt := rt cir, imm16 := imm16Field cir }
  | .luiImm => { rt := rt cir, imm16 := imm16Field cir }
  | .loadImm _ => { rs := rs cir, rt := rt cir, imm16 := imm16Field cir }
  | .storeImm _ => { rs := rs cir, rt := rt cir, imm16 := imm16Field cir }
  | .sc => { rs := rs cir, rt := rt cir, imm16 := imm16Field cir }
  | .rdhwr => { rt := rt cir, rd := rd cir }

/-! ### Uses of the macros -/

/-- A macro with its operands: numbers of registers, a shift amount, immediates of the width
of their field. -/
inductive Assembly
  | aluReg (rs rt rd : Fin 32)
  | aluImm (rs rt : Fin 32) (imm16 : U16)
  | branchEqNe (rs rt : Fin 32) (imm16 : U16)
  | branchGeneric (rs : Fin 32) (imm16 : U16)
  | branchBlezBgtz (rs : Fin 32) (imm16 : U16)
  | jJal (imm26 : BitVec 26)
  | jalr (rs rd : Fin 32)
  | jr (rs : Fin 32)
  | loadImm (rs rt : Fin 32) (imm16 : U16)
  | luiImm (rt : Fin 32) (imm16 : U16)
  | mf (rd : Fin 32)
  | mt (rs : Fin 32)
  | multDiv (rs rt : Fin 32)
  | shiftImm (rd rt sh : Fin 32)
  | shiftReg (rd rt rs : Fin 32)
  | storeImm (rt rs : Fin 32) (imm16 : U16)
  | syscall (imm20 : BitVec 20)
  | nop
  | halt
  deriving DecidableEq

/-- A register number or shift amount as an argument of a macro. -/
def argument (n : Fin 32) : U32 := BitVec.ofNat 32 n.val

/-- The word a macro makes of an instruction's code and the operands. -/
def Assembly.word (code : U32) : Assembly → U32
  | .aluReg rs rt rd => assembleAluReg code (argument rs) (argument rt) (argument rd)
  | .aluImm rs rt imm16 => assembleAluImm code (argument rs) (argument rt) (imm16.setWidth 32)
  | .branchEqNe rs rt imm16 =>
      assembleBranchEqNe code (argument rs) (argument rt) (imm16.setWidth 32)
  | .branchGeneric rs imm16 => assembleBranchGeneric code (argument rs) (imm16.setWidth 32)
  | .branchBlezBgtz rs imm16 => assembleBranchBlezBgtz code (argument rs) (imm16.setWidth 32)
  | .jJal imm26 => assembleJJal code (imm26.setWidth 32)
  | .jalr rs rd => assembleJalr code (argument rs) (argument rd)
  | .jr rs => assembleJr code (argument rs)
  | .loadImm rs rt imm16 => assembleLoadImm code (argument rs) (argument rt) (imm16.setWidth 32)
  | .luiImm rt imm16 => assembleLuiImm code (argument rt) (imm16.setWidth 32)
  | .mf rd => assembleMf code (argument rd)
  | .mt rs => assembleMt code (argument rs)
  | .multDiv rs rt => assembleMultDiv code (argument rs) (argument rt)
  | .shiftImm rd rt sh => assembleShiftImm code (argument rd) (argument rt) (argument sh)
  | .shiftReg rd rt rs => assembleShiftReg code (argument rd) (argument rt) (argument rs)
  | .storeImm rt rs imm16 =>
      assembleStoreImm code (argument rt) (argument rs) (imm16.setWidth 32)
  | .syscall imm20 => assembleSyscall code (imm20.setWidth 32)
  | .nop => ASSEMBLE_NOP
  | .halt => ASSEMBLE_HALT

/-- The operands a macro was given. `ASSEMBLE_NOP` and `ASSEMBLE_HALT` are whole words, with
the operands in them. -/
def Assembly.operands : Assembly → Operands
  | .aluReg rs rt rd => { rs := gpr rs, rt := gpr rt, rd := gpr rd }
  | .aluImm rs rt imm16 => { rs := gpr rs, rt := gpr rt, imm16 := imm16 }
  | .branchEqNe rs rt imm16 => { rs := gpr rs, rt := gpr rt, imm16 := imm16 }
  | .branchGeneric rs imm16 => { rs := gpr rs, imm16 := imm16 }
  | .branchBlezBgtz rs imm16 => { rs := gpr rs, imm16 := imm16 }
  | .jJal imm26 => { imm26 := imm26.setWidth 32 }
  | .jalr rs rd => { rs := gpr rs, rd := gpr rd }
  | .jr rs => { rs := gpr rs }
  | .loadImm rs rt imm16 => { rs := gpr rs, rt := gpr rt, imm16 := imm16 }
  | .luiImm rt imm16 => { rt := gpr rt, imm16 := imm16 }
  | .mf rd => { rd := gpr rd }
  | .mt rs => { rs := gpr rs }
  | .multDiv rs rt => { rs := gpr rs, rt := gpr rt }
  | .shiftImm rd rt sh => { rt := gpr rt, rd := gpr rd, sh := sh.val }
  | .shiftReg rd rt rs => { rs := gpr rs, rt := gpr rt, rd := gpr rd }
  | .storeImm rt rs imm16 => { rs := gpr rs, rt := gpr rt, imm16 := imm16 }
  | .syscall imm20 => { imm20 := imm20.setWidth 32 }
  | .nop => { rt := MIPS_R_ZERO, rd := MIPS_R_ZERO, sh := some 0 }
  | .halt => { imm20 := some 0xd }

/-- The instructions a macro is for: those of its type. -/
def Assembly.instrs : Assembly → List Instr
  | .aluReg _ _ _ => [.add, .addu, .sub, .subu, .and, .or, .xor, .nor, .slt, .sltu]
  | .aluImm _ _ _ => [.addi, .addiu, .slti, .sltiu, .andi, .ori, .xori]
  | .branchEqNe _ _ _ => [.beq, .bne]
  | .branchGeneric _ _ => [.bltz, .bgez, .bltzal, .bgezal]
  | .branchBlezBgtz _ _ => [.blez, .bgtz]
  | .jJal _ => [.j, .jal]
  | .jalr _ _ => [.jalr]
  | .jr _ => [.jr]
  | .loadImm _ _ _ => [.lb, .lh, .lwl, .lw, .lbu, .lhu, .lwr, .ll]
  | .luiImm _ _ => [.lui]
  | .mf _ => [.mfhi, .mflo]
  | .mt _ => [.mthi, .mtlo]
  | .multDiv _ _ => [.mult, .multu, .div, .divu]
  | .shiftImm _ _ _ => [.sll, .srl, .sra]
  | .shiftReg _ _ _ => [.sllv, .srlv, .srav]
  | .storeImm _ _ _ => [.sb, .sh, .swl, .sw, .sc, .swr]
  | .syscall _ => [.syscall, .special, .brk]
  | .nop => [.sll]
  | .halt => [.brk]

/-- `__INSTRUCTIONS`. -/
def instructions : List (Nat × Instr) :=
  instructionsPrimary ++ instructionsSecondary ++ instructionsBranch

/-- A use of a macro, for an instruction of its class. `code` is the instruction's value in
`__INSTRUCTIONS`. -/
structure Assembled where
  assembly : Assembly
  instr : Instr
  code : Nat
  covered : instr ∈ assembly.instrs
  row : (code, instr) ∈ instructions

/-- The assembled word. -/
def Assembled.word (a : Assembled) : U32 := a.assembly.word (BitVec.ofNat 32 a.code)

end MipsEngines
