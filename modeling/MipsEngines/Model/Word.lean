import Mathlib.Data.Nat.Bitwise

/-!
# `MipsEngines.Model.Word`: machine words, instruction fields and opcodes

The fixed-width types, shifts, masks and opcode numbers of `common.h`. A C
integer type of `w` bits is `BitVec w`; signedness is in the operation, as it is
in the casts of the source.
-/

set_option autoImplicit false

namespace MipsEngines

abbrev U8 := BitVec 8
abbrev U16 := BitVec 16
abbrev U32 := BitVec 32
abbrev U64 := BitVec 64

/-! ### Instruction fields -/

abbrev FN_SHIFT : Nat := 0
abbrev SH_SHIFT : Nat := 6
abbrev RD_SHIFT : Nat := 11
abbrev RT_SHIFT : Nat := 16
abbrev RS_SHIFT : Nat := 21
abbrev OP_SHIFT : Nat := 26
abbrev IMM16_SHIFT : Nat := 0
abbrev IMM20_SHIFT : Nat := 0
abbrev IMM26_SHIFT : Nat := 0

abbrev FN_MASK : U32 := 0x3f
abbrev SH_MASK : U32 := 0x1f
abbrev RD_MASK : U32 := 0x1f
abbrev RT_MASK : U32 := 0x1f
abbrev RS_MASK : U32 := 0x1f
abbrev OP_MASK : U32 := 0x3f
abbrev IMM16_MASK : U32 := 0xffff
abbrev IMM20_MASK : U32 := 0xfffff
abbrev IMM26_MASK : U32 := 0x3ffffff

/-- Masking with `2 ^ k - 1` leaves a number below `2 ^ k`. Every index the
source takes out of a word is bounded this way. -/
theorem toNat_and_mask_lt (x : U32) (m : U32) (k : Nat) (hm : m.toNat = 2 ^ k - 1) :
    (x &&& m).toNat < 2 ^ k := by
  rw [BitVec.toNat_and, hm, Nat.and_two_pow_sub_one_eq_mod]
  exact Nat.mod_lt _ (Nat.two_pow_pos k)

/-- The same mask as a remainder. -/
theorem toNat_and_mask (x : U32) (m : U32) (k : Nat) (hm : m.toNat = 2 ^ k - 1) :
    (x &&& m).toNat = x.toNat % 2 ^ k := by
  rw [BitVec.toNat_and, hm, Nat.and_two_pow_sub_one_eq_mod]

/-- Masking with the complement rounds down to a multiple of `2 ^ k`. -/
theorem toNat_and_not_mask (x : U32) (m : U32) (k : Nat) (hm : m.toNat = 2 ^ k - 1) :
    (x &&& ~~~m).toNat = x.toNat / 2 ^ k * 2 ^ k := by
  apply Nat.eq_of_testBit_eq
  intro i
  have hmask : m.getLsbD i = decide (i < k) := by
    rw [← BitVec.testBit_toNat, hm, Nat.testBit_two_pow_sub_one]
  rw [BitVec.testBit_toNat, BitVec.getLsbD_and, BitVec.getLsbD_not, hmask, Nat.testBit_mul_two_pow,
    Nat.testBit_div_two_pow, ← BitVec.testBit_toNat]
  by_cases hi : i < 32
  · by_cases hk : i < k
    · simp [hk]
    · rw [Nat.sub_add_cancel (Nat.not_lt.mp hk)]
      simp [hi, hk, Nat.not_lt.mp hk]
  · have : x.toNat.testBit i = false := by
      rw [BitVec.testBit_toNat]
      exact BitVec.getLsbD_of_ge x i (Nat.not_lt.mp hi)
    by_cases hk : i < k
    · simp [hk]
    · rw [Nat.sub_add_cancel (Nat.not_lt.mp hk), this]
      simp

/-- The primary opcode, `(cir >> OP_SHIFT) & OP_MASK`. -/
def opField (cir : U32) : Nat := ((cir >>> OP_SHIFT) &&& OP_MASK).toNat

/-- The secondary opcode, `(cir >> FN_SHIFT) & FN_MASK`. -/
def fnField (cir : U32) : Nat := ((cir >>> FN_SHIFT) &&& FN_MASK).toNat

/-- The branch opcode, `(cir >> RT_SHIFT) & RT_MASK`. -/
def rtField (cir : U32) : Nat := ((cir >>> RT_SHIFT) &&& RT_MASK).toNat

/-- The shift amount, `(cir >> SH_SHIFT) & SH_MASK`. -/
def shField (cir : U32) : Nat := ((cir >>> SH_SHIFT) &&& SH_MASK).toNat

/-- `(cir >> IMM16_SHIFT) & IMM16_MASK`, held in a `u16`. -/
def imm16Field (cir : U32) : U16 := ((cir >>> IMM16_SHIFT) &&& IMM16_MASK).setWidth 16

/-- `(cir >> IMM20_SHIFT) & IMM20_MASK`, held in a `u32`. -/
def imm20Field (cir : U32) : U32 := (cir >>> IMM20_SHIFT) &&& IMM20_MASK

/-- `(cir >> IMM26_SHIFT) & IMM26_MASK`, held in a `u32`. -/
def imm26Field (cir : U32) : U32 := (cir >>> IMM26_SHIFT) &&& IMM26_MASK

theorem opField_lt (cir : U32) : opField cir < 64 := toNat_and_mask_lt _ _ 6 rfl

theorem fnField_lt (cir : U32) : fnField cir < 64 := toNat_and_mask_lt _ _ 6 rfl

theorem rtField_lt (cir : U32) : rtField cir < 32 := toNat_and_mask_lt _ _ 5 rfl

/-! ### Opcodes -/

abbrev ADD_FN : Nat := 0x20
abbrev ADDU_FN : Nat := 0x21
abbrev SUB_FN : Nat := 0x22
abbrev SUBU_FN : Nat := 0x23
abbrev AND_FN : Nat := 0x24
abbrev OR_FN : Nat := 0x25
abbrev XOR_FN : Nat := 0x26
abbrev NOR_FN : Nat := 0x27
abbrev SLT_FN : Nat := 0x2A
abbrev SLTU_FN : Nat := 0x2B

abbrev ADDI_OP : Nat := 0x08
abbrev ADDIU_OP : Nat := 0x09
abbrev SLTI_OP : Nat := 0x0A
abbrev SLTIU_OP : Nat := 0x0B
abbrev ANDI_OP : Nat := 0x0C
abbrev ORI_OP : Nat := 0x0D
abbrev XORI_OP : Nat := 0x0E

abbrev BEQ_OP : Nat := 0x4
abbrev BNE_OP : Nat := 0x5

abbrev BLEZ_OP : Nat := 0x06
abbrev BGTZ_OP : Nat := 0x07
abbrev BLTZ_RT : Nat := 0x00
abbrev BGEZ_RT : Nat := 0x01
abbrev BLTZAL_RT : Nat := 0x10
abbrev BGEZAL_RT : Nat := 0x11

abbrev J_OP : Nat := 0x2
abbrev JAL_OP : Nat := 0x3

abbrev JALR_FN : Nat := 0x9
abbrev JR_FN : Nat := 0x8

abbrev LB_OP : Nat := 0x20
abbrev LH_OP : Nat := 0x21
abbrev LWL_OP : Nat := 0x22
abbrev LW_OP : Nat := 0x23
abbrev LBU_OP : Nat := 0x24
abbrev LHU_OP : Nat := 0x25
abbrev LWR_OP : Nat := 0x26

abbrev LUI_OP : Nat := 0xF

abbrev MFHI_FN : Nat := 0x10
abbrev MFLO_FN : Nat := 0x12
abbrev MTHI_FN : Nat := 0x11
abbrev MTLO_FN : Nat := 0x13

abbrev MULT_FN : Nat := 0x18
abbrev MULTU_FN : Nat := 0x19
abbrev DIV_FN : Nat := 0x1A
abbrev DIVU_FN : Nat := 0x1B

abbrev SLL_FN : Nat := 0x0
abbrev SRL_FN : Nat := 0x2
abbrev SRA_FN : Nat := 0x3
abbrev SLLV_FN : Nat := 0x4
abbrev SRLV_FN : Nat := 0x6
abbrev SRAV_FN : Nat := 0x7

abbrev SB_OP : Nat := 0x28
abbrev SH_OP : Nat := 0x29
abbrev SWL_OP : Nat := 0x2A
abbrev SW_OP : Nat := 0x2B
abbrev SWR_OP : Nat := 0x2E

abbrev SYSCALL_FN : Nat := 0xC
abbrev BRK_FN : Nat := 0xD

abbrev RDHWR_OP : Nat := 0x1f

/-! musl compatibility -/

abbrev SPECIAL_FN : Nat := 0xf
abbrev LL_OP : Nat := 0x30
abbrev SC_OP : Nat := 0x38

end MipsEngines
