import MipsEngines.Model.Syscalls

/-!
# `MipsEngines.Model.Instructions`: the instruction templates

`instructions.h`, and the X-macro lists of `mips.h`. All four engines build their
handlers from these templates: an instruction is a *type*, which reads the operands
(`ITP_TYPE_*`), and an *implementation* (`ITP_*_IMPL`).

Here each type is a function that takes the implementation as an argument.
`Instr.template` is the table of the X-macro lists, and `execute` runs a row of it.
The formatters only print, and the load-delay arms belong to another build, so
neither is here.
-/

set_option autoImplicit false

namespace MipsEngines

/-- The `name` column of the X-macro lists. -/
inductive Instr
  | blez | bgtz | j | jal | beq | bne
  | addi | addiu | slti | sltiu | andi | ori | xori | lui
  | lb | lh | lwl | lw | lbu | lhu | lwr | ll
  | sb | sh | swl | sw | sc | swr | rdhwr
  | brk | sll | srl | sra | sllv | srlv | srav | jr | jalr
  | syscall | special | mfhi | mflo | mthi | mtlo
  | mult | multu | div | divu
  | add | addu | sub | subu | slt | sltu | and | or | xor | nor
  | bltz | bgez | bltzal | bgezal
  deriving DecidableEq, Repr

/-- `__INSTRUCTIONS_PRIMARY`: opcode and name. -/
def instructionsPrimary : List (Nat × Instr) :=
  [(BLEZ_OP, .blez), (BGTZ_OP, .bgtz), (J_OP, .j), (JAL_OP, .jal), (BEQ_OP, .beq),
    (BNE_OP, .bne), (ADDI_OP, .addi), (ADDIU_OP, .addiu), (SLTI_OP, .slti),
    (SLTIU_OP, .sltiu), (ANDI_OP, .andi), (ORI_OP, .ori), (XORI_OP, .xori), (LUI_OP, .lui),
    (LB_OP, .lb), (LH_OP, .lh), (LWL_OP, .lwl), (LW_OP, .lw), (LBU_OP, .lbu), (LHU_OP, .lhu),
    (LWR_OP, .lwr), (LL_OP, .ll), (SB_OP, .sb), (SH_OP, .sh), (SWL_OP, .swl), (SW_OP, .sw),
    (SC_OP, .sc), (SWR_OP, .swr), (RDHWR_OP, .rdhwr)]

/-- `__INSTRUCTIONS_SECONDARY`: opcode and name. -/
def instructionsSecondary : List (Nat × Instr) :=
  [(BRK_FN, .brk), (SLL_FN, .sll), (SRL_FN, .srl), (SRA_FN, .sra), (SLLV_FN, .sllv),
    (SRLV_FN, .srlv), (SRAV_FN, .srav), (JR_FN, .jr), (JALR_FN, .jalr),
    (SYSCALL_FN, .syscall), (SPECIAL_FN, .special), (MFHI_FN, .mfhi), (MFLO_FN, .mflo),
    (MTHI_FN, .mthi), (MTLO_FN, .mtlo), (MULT_FN, .mult), (MULTU_FN, .multu), (DIV_FN, .div),
    (DIVU_FN, .divu), (ADD_FN, .add), (ADDU_FN, .addu), (SUB_FN, .sub), (SUBU_FN, .subu),
    (SLT_FN, .slt), (SLTU_FN, .sltu), (AND_FN, .and), (OR_FN, .or), (XOR_FN, .xor),
    (NOR_FN, .nor)]

/-- `__INSTRUCTIONS_BRANCH`: opcode and name. -/
def instructionsBranch : List (Nat × Instr) :=
  [(BLTZ_RT, .bltz), (BGEZ_RT, .bgez), (BLTZAL_RT, .bltzal), (BGEZAL_RT, .bgezal)]

/-! ### Types

`ITP_TYPE_*`, each with the store its implementations end in. An implementation
of an ALU type that may take the `TRAP` arm gives `none` there: nothing is
stored. -/

section Types

variable (cir : U32) (s : Machine)

/-- `ITP_TYPE_SHIFT_IMM`. -/
def typeShiftImm (impl : (valueRt : U32) → (sh : Nat) → U32) : Machine :=
  s.setReg (rd cir) (impl (s.reg (rt cir)) (shField cir))

/-- `ITP_TYPE_SHIFT_REG`. -/
def typeShiftReg (impl : (valueRs valueRt : U32) → U32) : Machine :=
  s.setReg (rd cir) (impl (s.reg (rs cir)) (s.reg (rt cir)))

/-- `ITP_TYPE_JR` with `ITP_JR_IMPL`. -/
def typeJr : Machine :=
  let valueRs := s.reg (rs cir)
  (s.setBranched true).setReg MIPS_R_NNPC valueRs

/-- `ITP_TYPE_JALR` with `ITP_JALR_IMPL`. -/
def typeJalr : Machine :=
  let valueRs := s.reg (rs cir)
  let s := s.setBranched true
  let s := s.setReg (rd cir) (s.reg MIPS_R_PC + 8)
  s.setReg MIPS_R_NNPC valueRs

/-- `ITP_TYPE_MF`: `rd` from `HI` or `LO`. -/
def typeMf (source : Reg) : Machine := s.setReg (rd cir) (s.reg source)

/-- `ITP_TYPE_MT`: `HI` or `LO` from `rs`. -/
def typeMt (target : Reg) : Machine := s.setReg target (s.reg (rs cir))

/-- `ITP_TYPE_MULT_DIV`. The implementation gives `LO` and `HI`. -/
def typeMultDiv (impl : (valueRs valueRt : U32) → U32 × U32) : Machine :=
  let result := impl (s.reg (rs cir)) (s.reg (rt cir))
  (s.setReg MIPS_R_LO result.1).setReg MIPS_R_HI result.2

/-- `ITP_TYPE_ALU_REG`. -/
def typeAluReg (impl : (valueRs valueRt : U32) → Option U32) : Machine :=
  match impl (s.reg (rs cir)) (s.reg (rt cir)) with
  | some v => s.setReg (rd cir) v
  | none => s

/-- `ITP_TYPE_ALU_IMM`. -/
def typeAluImm (impl : (valueRs : U32) → (imm16 : U16) → Option U32) : Machine :=
  match impl (s.reg (rs cir)) (imm16Field cir) with
  | some v => s.setReg (rt cir) v
  | none => s

/-- `ITP_TYPE_LUI_IMM` with `ITP_LUI_IMPL`. -/
def typeLuiImm : Machine := s.setReg (rt cir) ((imm16Field cir).setWidth 32 <<< 16)

/-- `BRANCH` and `NOT_BRANCH`. -/
def branchOn (taken : Bool) : Machine :=
  if taken then
    let s := s.setBranched true
    s.setReg MIPS_R_NNPC (s.reg MIPS_R_PC + ((imm16Field cir).signExtend 32 <<< 2) + 4)
  else
    let s := s.setBranched false
    -- The word after the delay slot: `NNPC` is stored even if it is that already.
    s.setReg MIPS_R_NNPC (s.reg MIPS_R_PC + 8)

/-- `ITP_TYPE_BRANCH_GENERIC`. The linking forms store the return address first. -/
def typeBranchGeneric (link : Bool) (cond : (valueRs : U32) → Bool) : Machine :=
  let valueRs := s.reg (rs cir)
  let s := if link then s.setReg MIPS_R_RA (s.reg MIPS_R_PC + 8) else s
  branchOn cir s (cond valueRs)

/-- `ITP_TYPE_BRANCH_EQ_NE`. -/
def typeBranchEqNe (cond : (valueRs valueRt : U32) → Bool) : Machine :=
  branchOn cir s (cond (s.reg (rs cir)) (s.reg (rt cir)))

/-- `ITP_TYPE_J_JAL`. The linking form stores the return address. -/
def typeJJal (link : Bool) : Machine :=
  let s := s.setBranched true
  let s := if link then s.setReg MIPS_R_RA (s.reg MIPS_R_PC + 8) else s
  s.setReg MIPS_R_NNPC ((s.reg MIPS_R_PC &&& 0xf0000000) ||| (imm26Field cir <<< 2))

/-- `LOAD_COMPUTE_ADDRESS` and `STORE_COMPUTE_ADDRESS`. -/
def computeAddress : U32 := (imm16Field cir).signExtend 32 + s.reg (rs cir)

/-- `ITP_TYPE_LOAD_IMM`. The implementation gets the address and the old value of
`rt`, which `LWL` and `LWR` merge into. -/
def typeLoadImm (impl : Memory → (address old : U32) → Except Fault U32) :
    Except Fault Machine := do
  let v ← impl s.memory (computeAddress cir s) (s.reg (rt cir))
  return s.setReg (rt cir) v

/-- `ITP_TYPE_STORE_IMM`. -/
def typeStoreImm (impl : Memory → (address valueRt : U32) → Except Fault Memory) :
    Except Fault Machine := do
  let memory ← impl s.memory (computeAddress cir s) (s.reg (rt cir))
  return s.setMemory memory

/-- `ITP_TYPE_SYSCALL`. No implementation uses `a3`. -/
def typeSyscall (impl : (v0 a0 a1 a2 : U32) → Machine → Except Fault Machine) :
    Except Fault Machine :=
  impl (s.reg MIPS_R_V0) (s.reg MIPS_R_A0) (s.reg MIPS_R_A1) (s.reg MIPS_R_A2) s

/-- `ITP_TYPE_RDHWR` with `ITP_RDHWR_IMPL`, a `switch` on the number in `rd`. -/
def typeRdhwr : Machine :=
  s.setReg (rt cir)
    -- 3 is the resolution of the cycle counter, 29 the thread pointer.
    (if (rd cir).val = 3 then 1 else if (rd cir).val = 29 then s.mips.userLocalPtr else 0)

end Types

/-! ### Implementations -/

/-- `(s32) a < (s32) b`. -/
def ltS32 (a b : U32) : Bool := a.slt b

def itpAddImpl (valueRs valueRt : U32) : Option U32 :=
  let r : U64 := valueRs.setWidth 64 + valueRt.setWidth 64
  if r > 0xffffffff then none else some (r.setWidth 32)

/-- Both operands are zero-extended, then subtracted and compared as `s64`. -/
def itpSubImpl (valueRs valueRt : U32) : Option U32 :=
  let r : U64 := valueRs.setWidth 64 - valueRt.setWidth 64
  if r.toInt < -2147483648 then none else some (r.setWidth 32)

/-- `value_rs` is zero-extended, the immediate sign-extended. -/
def itpAddiImpl (valueRs : U32) (imm16 : U16) : Option U32 :=
  let r : U64 := valueRs.setWidth 64 + imm16.signExtend 64
  -- Above the 32-bit range the `impl` stores nothing; below it there is no check.
  if r.toInt > 0xffffffff then none else some (r.setWidth 32)

/-- A 64-bit product as `LO` and `HI`. -/
def loHi (r : U64) : U32 × U32 := (r.setWidth 32, (r >>> 32).setWidth 32)

def itpMultImpl (valueRs valueRt : U32) : U32 × U32 :=
  loHi (valueRs.signExtend 64 * valueRt.signExtend 64)

def itpMultuImpl (valueRs valueRt : U32) : U32 × U32 :=
  loHi (valueRs.setWidth 64 * valueRt.setWidth 64)

/-- The operands are `u32`, so the last arm divides them unsigned. -/
def itpDivImpl (valueRs valueRt : U32) : U32 × U32 :=
  if valueRt = 0 then (if ltS32 0 valueRs then -1 else 1, valueRs)
  else if valueRt = -1 ∧ valueRs = 0x80000000 then (0x80000000, 0)
  else (valueRs / valueRt, valueRs % valueRt)

def itpDivuImpl (valueRs valueRt : U32) : U32 × U32 :=
  if valueRt ≠ 0 then (valueRs / valueRt, valueRs % valueRt) else (0xffffffff, valueRs)

def itpLbImpl (memory : Memory) (address _old : U32) : Except Fault U32 := do
  let read ← memoryReadU8 memory address
  return read.signExtend 32

def itpLhImpl (memory : Memory) (address _old : U32) : Except Fault U32 := do
  let read ← memoryReadU16 memory address
  return read.signExtend 32

def itpLwImpl (memory : Memory) (address _old : U32) : Except Fault U32 :=
  memoryReadU32 memory address

def itpLbuImpl (memory : Memory) (address _old : U32) : Except Fault U32 := do
  let read ← memoryReadU8 memory address
  return read.setWidth 32

def itpLhuImpl (memory : Memory) (address _old : U32) : Except Fault U32 := do
  let read ← memoryReadU16 memory address
  return read.setWidth 32

def itpLwrImpl (memory : Memory) (address old : U32) : Except Fault U32 := do
  let shift := ((address &&& 3) <<< 3).toNat
  let mask := (0xffffffff : U32) >>> shift
  let read ← memoryReadU32 memory (address &&& ~~~3)
  return (old &&& ~~~mask) ||| (read >>> shift)

def itpLwlImpl (memory : Memory) (address old : U32) : Except Fault U32 := do
  let shift := ((address &&& 3) <<< 3).toNat
  let mask := (0xffffffff : U32) <<< (24 - shift)
  let read ← memoryReadU32 memory (address &&& ~~~3)
  return (old &&& ~~~mask) ||| (read <<< (24 - shift))

def itpSbImpl (memory : Memory) (address valueRt : U32) : Except Fault Memory :=
  memoryWriteU8 memory address (valueRt.setWidth 8)

def itpShImpl (memory : Memory) (address valueRt : U32) : Except Fault Memory :=
  memoryWriteU16 memory address (valueRt.setWidth 16)

/-- `ITP_SW_IMPL`. `ITP_SWL_IMPL` and `ITP_SWR_IMPL` are the same text, marked
`TODO` in the source. -/
def itpSwImpl (memory : Memory) (address valueRt : U32) : Except Fault Memory :=
  memoryWriteU32 memory address valueRt

/-- `ITP_SC_IMPL`: the store always succeeds, and `rt` is set to say so. -/
def typeSc (cir : U32) (s : Machine) : Except Fault Machine := do
  let s ← typeStoreImm cir s itpSwImpl
  return s.setReg (rt cir) 1

/-- The first columns of an X-macro row: a type, with the implementation it is
given. -/
inductive Template
  | shiftImm (impl : (valueRt : U32) → (sh : Nat) → U32)
  | shiftReg (impl : (valueRs valueRt : U32) → U32)
  | jr
  | jalr
  | syscall
  | special
  | brk
  | mf (source : Reg)
  | mt (target : Reg)
  | multDiv (impl : (valueRs valueRt : U32) → U32 × U32)
  | aluReg (impl : (valueRs valueRt : U32) → Option U32)
  | branchGeneric (link : Bool) (cond : (valueRs : U32) → Bool)
  | jJal (link : Bool)
  | branchEqNe (cond : (valueRs valueRt : U32) → Bool)
  | aluImm (impl : (valueRs : U32) → (imm16 : U16) → Option U32)
  | luiImm
  | loadImm (impl : Memory → (address old : U32) → Except Fault U32)
  | storeImm (impl : Memory → (address valueRt : U32) → Except Fault Memory)
  | sc
  | rdhwr

/-- The rows of the X-macro lists. -/
def Instr.template : Instr → Template
  | .blez => .branchGeneric false fun v => !ltS32 0 v
  | .bgtz => .branchGeneric false fun v => ltS32 0 v
  | .j => .jJal false
  | .jal => .jJal true
  | .beq => .branchEqNe fun a b => a == b
  | .bne => .branchEqNe fun a b => a != b
  | .addi => .aluImm itpAddiImpl
  | .addiu => .aluImm fun a imm => some (a + imm.signExtend 32)
  | .slti => .aluImm fun a imm => some (if ltS32 a (imm.signExtend 32) then 1 else 0)
  | .sltiu => .aluImm fun a imm => some (if a < imm.signExtend 32 then 1 else 0)
  | .andi => .aluImm fun a imm => some (a &&& imm.setWidth 32)
  | .ori => .aluImm fun a imm => some (a ||| imm.setWidth 32)
  | .xori => .aluImm fun a imm => some (a ^^^ imm.setWidth 32)
  | .lui => .luiImm
  | .lb => .loadImm itpLbImpl
  | .lh => .loadImm itpLhImpl
  | .lwl => .loadImm itpLwlImpl
  | .lw => .loadImm itpLwImpl
  | .lbu => .loadImm itpLbuImpl
  | .lhu => .loadImm itpLhuImpl
  | .lwr => .loadImm itpLwrImpl
  | .ll => .loadImm itpLwImpl
  | .sb => .storeImm itpSbImpl
  | .sh => .storeImm itpShImpl
  | .swl => .storeImm itpSwImpl
  | .sw => .storeImm itpSwImpl
  | .sc => .sc
  | .swr => .storeImm itpSwImpl
  | .rdhwr => .rdhwr
  | .brk => .brk
  | .sll => .shiftImm fun v sh => v <<< sh
  | .srl => .shiftImm fun v sh => v >>> sh
  | .sra => .shiftImm fun v sh => v.sshiftRight sh
  | .sllv => .shiftReg fun a v => v <<< (a &&& 0x1f).toNat
  | .srlv => .shiftReg fun a v => v >>> (a &&& 0x1f).toNat
  | .srav => .shiftReg fun a v => v.sshiftRight (a &&& 0x1f).toNat
  | .jr => .jr
  | .jalr => .jalr
  | .syscall => .syscall
  | .special => .special
  | .mfhi => .mf MIPS_R_HI
  | .mflo => .mf MIPS_R_LO
  | .mthi => .mt MIPS_R_HI
  | .mtlo => .mt MIPS_R_LO
  | .mult => .multDiv itpMultImpl
  | .multu => .multDiv itpMultuImpl
  | .div => .multDiv itpDivImpl
  | .divu => .multDiv itpDivuImpl
  | .add => .aluReg itpAddImpl
  | .addu => .aluReg fun a b => some (a + b)
  | .sub => .aluReg itpSubImpl
  | .subu => .aluReg fun a b => some (a - b)
  | .slt => .aluReg fun a b => some (if ltS32 a b then 1 else 0)
  | .sltu => .aluReg fun a b => some (if a < b then 1 else 0)
  | .and => .aluReg fun a b => some (a &&& b)
  | .or => .aluReg fun a b => some (a ||| b)
  | .xor => .aluReg fun a b => some (a ^^^ b)
  | .nor => .aluReg fun a b => some (~~~(a ||| b))
  | .bltz => .branchGeneric false fun v => ltS32 v 0
  | .bgez => .branchGeneric false fun v => !ltS32 v 0
  | .bltzal => .branchGeneric true fun v => ltS32 v 0
  | .bgezal => .branchGeneric true fun v => !ltS32 v 0

/-- The body of a handler. -/
def Template.run (host : Host) (cir : U32) (s : Machine) : Template → Except Fault Machine
  | .shiftImm impl => .ok (typeShiftImm cir s impl)
  | .shiftReg impl => .ok (typeShiftReg cir s impl)
  | .jr => .ok (typeJr cir s)
  | .jalr => .ok (typeJalr cir s)
  | .syscall => typeSyscall s (itpSyscallImpl host)
  | .special => .ok s
  | .brk => .error .abort
  | .mf source => .ok (typeMf cir s source)
  | .mt target => .ok (typeMt cir s target)
  | .multDiv impl => .ok (typeMultDiv cir s impl)
  | .aluReg impl => .ok (typeAluReg cir s impl)
  | .branchGeneric link cond => .ok (typeBranchGeneric cir s link cond)
  | .jJal link => .ok (typeJJal cir s link)
  | .branchEqNe cond => .ok (typeBranchEqNe cir s cond)
  | .aluImm impl => .ok (typeAluImm cir s impl)
  | .luiImm => .ok (typeLuiImm cir s)
  | .loadImm impl => typeLoadImm cir s impl
  | .storeImm impl => typeStoreImm cir s impl
  | .sc => typeSc cir s
  | .rdhwr => .ok (typeRdhwr cir s)

/-- What the handler of an instruction does, without the program counter step
that an engine adds. -/
def execute (host : Host) (i : Instr) (cir : U32) (s : Machine) : Except Fault Machine :=
  i.template.run host cir s

/-- The control transfers: what `decode_block` files under `LABEL_BRANCH` and
`LABEL_BRANCH_INDIRECT`. -/
def Instr.isControl : Instr → Bool
  | .jr | .jalr | .bltz | .bgez | .blez | .bgtz | .bltzal | .bgezal
  | .j | .jal | .beq | .bne => true
  | _ => false

/-- The transfers to a register: `LABEL_BRANCH_INDIRECT`. -/
def Instr.isIndirect : Instr → Bool
  | .jr | .jalr => true
  | _ => false

end MipsEngines
