import MipsEngines.Model.Instructions

/-!
# `MipsEngines.Model.Dispatch`: from an instruction word to a handler

Two ways to select a handler. `switchDispatch` is the nested `switch` that
`switch.c` generates from the instruction lists. `tableDispatch` goes through the
three arrays that `computed-goto.c`, `tail-call.c` and `blocked.c` write out by
hand. The three files give their arrays the same initialisers, with labels in
place of functions, so one set of arrays serves all three.
-/

set_option autoImplicit false

namespace MipsEngines

/-- The nested `switch` of `interpreter_switch`. A `default` arm is `none`. -/
def switchDispatch (cir : U32) : Option Instr :=
  -- The inner `switch` of `case 0`, that of `case 1`, and the remaining cases.
  if opField cir = 0 then instructionsSecondary.lookup (fnField cir)
  else if opField cir = 1 then instructionsBranch.lookup (rtField cir)
  else instructionsPrimary.lookup (opField cir)

/-! ### The sparse arrays -/

/-- A C array given by designated initialisers: it ends at the greatest index
designated, and the entries between are `NULL`. -/
def designated {α : Type} (inits : List (Nat × α)) : List (Option α) :=
  (List.range ((inits.map Prod.fst).foldr max 0 + 1)).map (List.lookup · inits)

/-- An entry of the `primary` array: one of the two other arrays, or a handler. -/
inductive Label
  | secondary
  | branch
  | instr (i : Instr)
  deriving DecidableEq, Repr

def primary : List (Option Label) :=
  designated [(0, .secondary), (1, .branch),
    (J_OP, .instr .j), (JAL_OP, .instr .jal),
    (BEQ_OP, .instr .beq), (BNE_OP, .instr .bne),
    (BLEZ_OP, .instr .blez), (BGTZ_OP, .instr .bgtz),
    (ADDI_OP, .instr .addi), (ADDIU_OP, .instr .addiu),
    (SLTI_OP, .instr .slti), (SLTIU_OP, .instr .sltiu),
    (ANDI_OP, .instr .andi), (ORI_OP, .instr .ori),
    (XORI_OP, .instr .xori), (LUI_OP, .instr .lui),
    (LB_OP, .instr .lb), (LH_OP, .instr .lh),
    (LWL_OP, .instr .lwl), (LW_OP, .instr .lw),
    (LL_OP, .instr .ll), (LBU_OP, .instr .lbu),
    (LHU_OP, .instr .lhu), (LWR_OP, .instr .lwr),
    (SH_OP, .instr .sh), (SWL_OP, .instr .swl),
    (SW_OP, .instr .sw), (SWR_OP, .instr .swr),
    (SB_OP, .instr .sb), (SC_OP, .instr .sc),
    (RDHWR_OP, .instr .rdhwr)]

def secondary : List (Option Instr) :=
  designated [(SLL_FN, .sll), (SRL_FN, .srl),
    (SRA_FN, .sra), (SLLV_FN, .sllv),
    (SRLV_FN, .srlv), (SRAV_FN, .srav),
    (JR_FN, .jr), (JALR_FN, .jalr),
    (SYSCALL_FN, .syscall), (BRK_FN, .brk),
    (MFHI_FN, .mfhi), (MTHI_FN, .mthi),
    (MFLO_FN, .mflo), (MTLO_FN, .mtlo),
    (MULT_FN, .mult), (MULTU_FN, .multu),
    (DIV_FN, .div), (DIVU_FN, .divu),
    (ADD_FN, .add), (ADDU_FN, .addu),
    (SUB_FN, .sub), (SUBU_FN, .subu),
    (AND_FN, .and), (OR_FN, .or),
    (XOR_FN, .xor), (NOR_FN, .nor),
    (SLT_FN, .slt), (SLTU_FN, .sltu),
    (SPECIAL_FN, .special)]

def branch : List (Option Instr) :=
  designated [(BLTZ_RT, .bltz), (BGEZ_RT, .bgez),
    (BLTZAL_RT, .bltzal), (BGEZAL_RT, .bgezal)]

/-- `goto *table[i]`, or a call through `table[i]`. -/
def jumpThrough {α : Type} (table : List (Option α)) (i : Nat) : Except Fault α :=
  match table[i]? with
  | none => .error .outOfRange
  | some none => .error .emptyEntry
  | some (some label) => .ok label

/-- The jumps that may follow the first one, from `do_secondary` and
`do_branch`. -/
def Label.follow (cir : U32) : Label → Except Fault Instr
  | .secondary => jumpThrough MipsEngines.secondary (fnField cir)
  | .branch => jumpThrough MipsEngines.branch (rtField cir)
  | .instr i => .ok i

/-- The handler the arrays lead to. -/
def tableDispatch (cir : U32) : Except Fault Instr := do
  let label ← jumpThrough primary (opField cir)
  label.follow cir

end MipsEngines
