import Mathlib.Tactic.FinCases
import MipsEngines.Model.Assembler
import MipsEngines.Proofs.Dispatch

/-!
# `MipsEngines.Proofs.Assembler`: the test assembler and the decoder

Every test writes its program with the `ASSEMBLE_*` macros, so it relies on the engines taking
a word apart as the macro put it together. `assembled_iff` says for which uses of a macro they
do. Two macros are wrong: `ASSEMBLE_MULT_DIV` puts the code of the instruction in the `OP`
field, and `ASSEMBLE_SYSCALL` its immediate over the `FN` field.
-/

set_option autoImplicit false

namespace MipsEngines

open Lib Lib.BitField

/-! ### Fields of a word -/

section Fields

variable (w : U32)

theorem opField_get : opField w = (get OP_SHIFT OP_MASK w).toNat := rfl

theorem fnField_get : fnField w = (get FN_SHIFT FN_MASK w).toNat := rfl

theorem rtField_get : rtField w = (get RT_SHIFT RT_MASK w).toNat := rfl

theorem shField_get : shField w = (get SH_SHIFT SH_MASK w).toNat := rfl

theorem imm16Field_get : imm16Field w = (get IMM16_SHIFT IMM16_MASK w).setWidth 16 := rfl

theorem imm26Field_get : imm26Field w = get IMM26_SHIFT IMM26_MASK w := rfl

theorem rs_get : rs w = gpr (Fin.ofNat 32 (get RS_SHIFT RS_MASK w).toNat) :=
  congrArg gpr (Fin.ext (Nat.mod_eq_of_lt (toNat_and_mask_lt _ _ 5 rfl)).symm)

theorem rt_get : rt w = gpr (Fin.ofNat 32 (get RT_SHIFT RT_MASK w).toNat) :=
  congrArg gpr (Fin.ext (Nat.mod_eq_of_lt (toNat_and_mask_lt _ _ 5 rfl)).symm)

theorem rd_get : rd w = gpr (Fin.ofNat 32 (get RD_SHIFT RD_MASK w).toNat) :=
  congrArg gpr (Fin.ext (Nat.mod_eq_of_lt (toNat_and_mask_lt _ _ 5 rfl)).symm)

end Fields

/-! ### Arguments that fit in their field -/

theorem argument_toNat (n : Fin 32) : (argument n).toNat = n.val := by
  revert n
  decide

theorem argument_and (n : Fin 32) : argument n &&& 0x1f = argument n :=
  and_eq_self (k := 5) rfl (by rw [argument_toNat]; exact n.isLt)

/-- The operands of the type that a macro assembles for. -/
def Assembly.read (cir : U32) : Assembly → Operands
  | .aluReg _ _ _ | .shiftReg _ _ _ => { rs := rs cir, rt := rt cir, rd := rd cir }
  | .aluImm _ _ _ | .branchEqNe _ _ _ | .loadImm _ _ _ | .storeImm _ _ _ =>
      { rs := rs cir, rt := rt cir, imm16 := imm16Field cir }
  | .branchGeneric _ _ | .branchBlezBgtz _ _ => { rs := rs cir, imm16 := imm16Field cir }
  | .jJal _ => { imm26 := imm26Field cir }
  | .jalr _ _ => { rs := rs cir, rd := rd cir }
  | .jr _ | .mt _ => { rs := rs cir }
  | .luiImm _ _ => { rt := rt cir, imm16 := imm16Field cir }
  | .mf _ => { rd := rd cir }
  | .multDiv _ _ => { rs := rs cir, rt := rt cir }
  | .shiftImm _ _ _ | .nop => { rt := rt cir, rd := rd cir, sh := shField cir }
  | .syscall _ | .halt => { imm20 := imm20Field cir }

/-- These are all that the body of the handler looks at in the word. -/
theorem Template.run_congr {host : Host} {t : Template} {cir cir' : U32} {s : Machine}
    (h : t.operands cir = t.operands cir') : t.run host cir s = t.run host cir' s := by
  cases t with
  | syscall | special | brk => rfl
  | _ =>
      simp only [Template.operands, Operands.mk.injEq, Option.some.injEq, and_true, true_and] at h
      simp only [Template.run, typeShiftImm, typeShiftReg, typeJr, typeJalr, typeMf, typeMt,
        typeMultDiv, typeAluReg, typeBranchGeneric, typeJJal, typeBranchEqNe, typeAluImm,
        typeLuiImm, typeLoadImm, typeStoreImm, typeSc, typeRdhwr, branchOn, computeAddress, h]

/-- All instructions of a macro have a type with these operands. -/
theorem operands_of_mem {a : Assembly} {i : Instr} (hi : i ∈ a.instrs) (cir : U32) :
    i.template.operands cir = a.read cir := by
  cases a <;> fin_cases hi <;> rfl

/-- The operands come back as they were assembled, unless the macro is `ASSEMBLE_SYSCALL`. -/
theorem read_word (code : U32) {a : Assembly} (ha : ∀ imm20, a ≠ .syscall imm20) :
    a.read (a.word code) = a.operands := by
  cases a with
  | syscall imm20 => exact absurd rfl (ha imm20)
  | nop => exact show Assembly.nop.read ASSEMBLE_NOP = Assembly.nop.operands by decide
  | halt => exact show Assembly.halt.read ASSEMBLE_HALT = Assembly.halt.operands by decide
  | _ =>
      simp (disch := decide) only [Assembly.read, Assembly.word, Assembly.operands,
        assembleAluReg, assembleAluImm, assembleBranchEqNe, assembleBranchGeneric,
        assembleBranchBlezBgtz, assembleJJal, assembleJalr, assembleJr, assembleLoadImm,
        assembleLuiImm, assembleMf, assembleMt, assembleMultDiv, assembleShiftImm,
        assembleShiftReg, assembleStoreImm, rs_get, rt_get, rd_get, shField_get, imm16Field_get,
        imm26Field_get, get_or, get_put, get_put_of_disjoint, argument_and, setWidth_and,
        argument_toNat, Fin.ofNat_val_eq_self, BitVec.setWidth_setWidth_of_le, BitVec.setWidth_eq,
        BitVec.or_zero, BitVec.zero_or]

/-! ### The selecting fields -/

/-- A code that fits in a field of six bits. -/
theorem code_and {code : Nat} (hcode : code < 64) :
    BitVec.ofNat 32 code &&& 0x3f = BitVec.ofNat 32 code :=
  ofNat_and (k := 6) rfl hcode

/-- A code that fits in a field of five bits. -/
theorem code_and_five {code : Nat} (hcode : code < 32) :
    BitVec.ofNat 32 code &&& 0x1f = BitVec.ofNat 32 code :=
  ofNat_and (k := 5) rfl hcode

/-- The macros for secondary instructions, but `ASSEMBLE_MULT_DIV` and `ASSEMBLE_SYSCALL`. -/
def Assembly.isSecondary : Assembly → Bool
  | .aluReg _ _ _ | .jalr _ _ | .jr _ | .mf _ | .mt _ | .shiftImm _ _ _ | .shiftReg _ _ _ => true
  | _ => false

/-- The macros for primary instructions. -/
def Assembly.isPrimary : Assembly → Bool
  | .aluImm _ _ _ | .branchEqNe _ _ _ | .branchBlezBgtz _ _ | .jJal _ | .loadImm _ _ _
  | .luiImm _ _ | .storeImm _ _ _ => true
  | _ => false

theorem opField_primary {a : Assembly} (ha : a.isPrimary = true) {code : Nat} (hcode : code < 64) :
    opField (a.word (BitVec.ofNat 32 code)) = code := by
  have hget : get OP_SHIFT OP_MASK (a.word (BitVec.ofNat 32 code)) = BitVec.ofNat 32 code := by
    cases a with
    | aluImm | branchEqNe | branchBlezBgtz | jJal | loadImm | luiImm | storeImm =>
        simp (disch := decide) only [Assembly.word, assembleAluImm, assembleBranchEqNe,
          assembleBranchBlezBgtz, assembleJJal, assembleLoadImm, assembleLuiImm, assembleStoreImm,
          get_or, get_put, get_put_of_disjoint, code_and hcode, BitVec.or_zero]
    | _ => cases ha
  rw [opField_get, hget, BitVec.toNat_ofNat]
  omega

theorem fields_secondary {a : Assembly} (ha : a.isSecondary = true) {code : Nat}
    (hcode : code < 64) :
    opField (a.word (BitVec.ofNat 32 code)) = 0 ∧
      fnField (a.word (BitVec.ofNat 32 code)) = code := by
  have hget : get OP_SHIFT OP_MASK (a.word (BitVec.ofNat 32 code)) = 0#32 ∧
      get FN_SHIFT FN_MASK (a.word (BitVec.ofNat 32 code)) = BitVec.ofNat 32 code := by
    cases a with
    | aluReg | jalr | jr | mf | mt | shiftImm | shiftReg =>
        simp (disch := decide) only [Assembly.word, assembleAluReg, assembleJalr, assembleJr,
          assembleMf, assembleMt, assembleShiftImm, assembleShiftReg, get_or, get_put,
          get_put_of_disjoint, code_and hcode, BitVec.or_zero, and_self]
    | _ => cases ha
  rw [opField_get, fnField_get, hget.1, hget.2]
  exact ⟨rfl, Nat.mod_eq_of_lt (by omega)⟩

theorem fields_branchGeneric (rs : Fin 32) (imm16 : U16) {code : Nat} (hcode : code < 32) :
    opField ((Assembly.branchGeneric rs imm16).word (BitVec.ofNat 32 code)) = 1 ∧
      rtField ((Assembly.branchGeneric rs imm16).word (BitVec.ofNat 32 code)) = code := by
  have hop : get OP_SHIFT OP_MASK
      ((Assembly.branchGeneric rs imm16).word (BitVec.ofNat 32 code)) = 0x1 &&& OP_MASK := by
    simp (disch := decide) only [Assembly.word, assembleBranchGeneric, get_or, get_put,
      get_put_of_disjoint, BitVec.or_zero]
  have hrt : get RT_SHIFT RT_MASK
      ((Assembly.branchGeneric rs imm16).word (BitVec.ofNat 32 code)) = BitVec.ofNat 32 code := by
    simp (disch := decide) only [Assembly.word, assembleBranchGeneric, get_or, get_put,
      get_put_of_disjoint, code_and_five hcode, BitVec.or_zero, BitVec.zero_or]
  rw [opField_get, rtField_get, hop, hrt]
  exact ⟨rfl, Nat.mod_eq_of_lt (by omega)⟩

/-! ### Dispatch -/

section Rows

variable {w : U32} {code : Nat} {i : Instr}

theorem code_lt (hrow : (code, i) ∈ instructions) : code < 64 :=
  (show ∀ row ∈ instructions, row.1 < 64 by decide) _ hrow

theorem dispatch_primary (hrow : (code, i) ∈ instructionsPrimary) (hop : opField w = code) :
    switchDispatch w = some i := by
  obtain ⟨hne0, hne1, hlookup⟩ := (show ∀ row ∈ instructionsPrimary, row.1 ≠ 0 ∧ row.1 ≠ 1 ∧
    instructionsPrimary.lookup row.1 = some row.2 by decide) _ hrow
  unfold switchDispatch
  rw [hop, if_neg hne0, if_neg hne1]
  exact hlookup

theorem dispatch_secondary (hrow : (code, i) ∈ instructionsSecondary) (hop : opField w = 0)
    (hfn : fnField w = code) : switchDispatch w = some i := by
  unfold switchDispatch
  rw [hop, if_pos rfl, hfn]
  exact (show ∀ row ∈ instructionsSecondary,
    instructionsSecondary.lookup row.1 = some row.2 by decide) _ hrow

theorem dispatch_branch (hrow : (code, i) ∈ instructionsBranch) (hop : opField w = 1)
    (hrt : rtField w = code) : switchDispatch w = some i := by
  unfold switchDispatch
  rw [hop, if_neg (by decide), if_pos rfl, hrt]
  exact (show ∀ row ∈ instructionsBranch,
    instructionsBranch.lookup row.1 = some row.2 by decide) _ hrow

/-- The rows of the instructions of a macro are all in one list. -/
theorem row_primary {a : Assembly} (ha : a.isPrimary = true) (hi : i ∈ a.instrs)
    (hrow : (code, i) ∈ instructions) : (code, i) ∈ instructionsPrimary := by
  have hmem : i ∈ instructionsPrimary.map Prod.snd := by
    cases a with
    | aluImm | branchEqNe | branchBlezBgtz | jJal | loadImm | luiImm | storeImm =>
        fin_cases hi <;> decide
    | _ => cases ha
  exact (show ∀ row ∈ instructions, row.2 ∈ instructionsPrimary.map Prod.snd →
    row ∈ instructionsPrimary by decide) _ hrow hmem

theorem row_secondary {a : Assembly} (ha : a.isSecondary = true) (hi : i ∈ a.instrs)
    (hrow : (code, i) ∈ instructions) : (code, i) ∈ instructionsSecondary := by
  have hmem : i ∈ instructionsSecondary.map Prod.snd := by
    cases a with
    | aluReg | jalr | jr | mf | mt | shiftImm | shiftReg => fin_cases hi <;> decide
    | _ => cases ha
  exact (show ∀ row ∈ instructions, row.2 ∈ instructionsSecondary.map Prod.snd →
    row ∈ instructionsSecondary by decide) _ hrow hmem

end Rows

/-! ### The two macros that are wrong -/

/-- `ASSEMBLE_MULT_DIV` makes a word with the code in the `OP` field, where it is no
instruction's. -/
theorem dispatch_multDiv {rs rt : Fin 32} {i : Instr} {code : Nat}
    (hi : i ∈ (Assembly.multDiv rs rt).instrs) (hrow : (code, i) ∈ instructions) :
    switchDispatch ((Assembly.multDiv rs rt).word (BitVec.ofNat 32 code)) = none := by
  have hget : get OP_SHIFT OP_MASK ((Assembly.multDiv rs rt).word (BitVec.ofNat 32 code))
      = BitVec.ofNat 32 code := by
    simp (disch := decide) only [Assembly.word, assembleMultDiv, get_or, get_put,
      get_put_of_disjoint, code_and (code_lt hrow), BitVec.or_zero]
  have hop : opField ((Assembly.multDiv rs rt).word (BitVec.ofNat 32 code)) = code := by
    rw [opField_get, hget]
    exact Nat.mod_eq_of_lt (Nat.lt_trans (code_lt hrow) (by decide))
  obtain ⟨hne0, hne1, hlookup⟩ := (show ∀ row ∈ instructions,
    row.2 ∈ [Instr.mult, .multu, .div, .divu] → row.1 ≠ 0 ∧ row.1 ≠ 1 ∧
      instructionsPrimary.lookup row.1 = none by decide) _ hrow hi
  unfold switchDispatch
  rw [hop, if_neg hne0, if_neg hne1]
  exact hlookup

section Syscall

variable {imm20 : BitVec 20} {code : Nat}

theorem opField_syscall :
    opField ((Assembly.syscall imm20).word (BitVec.ofNat 32 code)) = 0 := by
  have hget : get OP_SHIFT OP_MASK ((Assembly.syscall imm20).word (BitVec.ofNat 32 code))
      = 0#32 := by
    simp (disch := decide) only [Assembly.word, assembleSyscall, get_or, get_put_of_disjoint,
      BitVec.or_zero]
  rw [opField_get, hget]
  rfl

theorem toNat_syscall (hcode : code < 64) :
    ((Assembly.syscall imm20).word (BitVec.ofNat 32 code)).toNat = code ||| imm20.toNat := by
  have hword : (Assembly.syscall imm20).word (BitVec.ofNat 32 code)
      = BitVec.ofNat 32 code ||| imm20.setWidth 32 := by
    simp (disch := decide) only [Assembly.word, assembleSyscall, put, code_and hcode, setWidth_and,
      BitVec.shiftLeft_zero]
  rw [hword, BitVec.toNat_or, BitVec.toNat_ofNat, BitVec.toNat_setWidth,
    Nat.mod_eq_of_lt (by omega), Nat.mod_eq_of_lt (by omega)]

/-- The fields of an `ASSEMBLE_SYSCALL` word both start at bit 0, so each holds bits of both. -/
theorem fnField_syscall (hcode : code < 64) :
    fnField ((Assembly.syscall imm20).word (BitVec.ofNat 32 code)) = code ||| imm20.toNat % 64 := by
  unfold fnField
  rw [toNat_and_mask _ _ 6 rfl]
  show BitVec.toNat _ % 2 ^ 6 = _
  rw [BitVec.ushiftRight_zero, toNat_syscall hcode, Nat.or_mod_two_pow, Nat.mod_eq_of_lt hcode]

theorem imm20Field_syscall (hcode : code < 64) :
    (imm20Field ((Assembly.syscall imm20).word (BitVec.ofNat 32 code))).toNat
      = code ||| imm20.toNat := by
  unfold imm20Field
  rw [toNat_and_mask _ _ 20 rfl, BitVec.ushiftRight_zero, toNat_syscall hcode,
    Nat.or_mod_two_pow, Nat.mod_eq_of_lt (show code < 2 ^ 20 by omega),
    Nat.mod_eq_of_lt imm20.isLt]

/-- They are what was assembled when the low bits of the immediate are the code. -/
theorem or_eq_iff {n : Nat} (hcode : code < 64) :
    (code ||| n % 64 = code ∧ code ||| n = n) ↔ n % 64 = code := by
  constructor
  · rintro ⟨hfn, himm⟩
    -- The low six bits of the immediate include the code, and are in it.
    have hmod : (code ||| n) % 2 ^ 6 = n % 2 ^ 6 := by rw [himm]
    rw [Nat.or_mod_two_pow, Nat.mod_eq_of_lt hcode] at hmod
    exact hmod.symm.trans hfn
  · intro h
    refine ⟨by rw [h, Nat.or_self], ?_⟩
    apply Nat.eq_of_testBit_eq
    intro j
    rw [Nat.testBit_or, ← h, show (64 : Nat) = 2 ^ 6 by rfl, Nat.testBit_mod_two_pow]
    cases n.testBit j <;> simp

end Syscall

/-! ### Every macro -/

/-- The engines take the word for what was assembled. -/
structure Assembled.Decoded (a : Assembled) : Prop where
  switch : switchDispatch a.word = some a.instr
  tables : tableDispatch a.word = .ok a.instr
  operands : a.instr.template.operands a.word = a.assembly.operands

/-- The macro puts the code where it is looked for, and nothing else over it. -/
def Assembled.WellPlaced (a : Assembled) : Prop :=
  match a.assembly with
  | .multDiv _ _ => False
  | .syscall imm20 => imm20.toNat % 64 = a.code
  | _ => True

theorem Assembled.decoded_iff (a : Assembled) :
    a.Decoded ↔ switchDispatch a.word = some a.instr ∧
      a.assembly.read a.word = a.assembly.operands := by
  rw [← operands_of_mem a.covered]
  constructor
  · intro h
    exact ⟨h.switch, h.operands⟩
  · rintro ⟨hswitch, hoperands⟩
    exact ⟨hswitch, tableDispatch_eq_ok_iff.mpr hswitch, hoperands⟩

/-- So it runs as any word with these operands. -/
theorem Assembled.Decoded.execute_eq {a : Assembled} (h : a.Decoded) {host : Host} {cir : U32}
    {s : Machine} (hcir : a.instr.template.operands cir = a.assembly.operands) :
    execute host a.instr a.word s = execute host a.instr cir s :=
  Template.run_congr (h.operands.trans hcir.symm)

/-- A macro that takes its operands apart and has its code where it is looked for. -/
theorem Assembled.decoded_of_dispatch {a : Assembled} (hne : ∀ imm20, a.assembly ≠ .syscall imm20)
    (hdispatch : switchDispatch a.word = some a.instr) : a.Decoded :=
  a.decoded_iff.mpr ⟨hdispatch, read_word _ hne⟩

/-- `ASSEMBLE_SYSCALL` is right when the immediate ends in the code. -/
theorem Assembled.decoded_syscall_iff {a : Assembled} {imm20 : BitVec 20}
    (ha : a.assembly = .syscall imm20) : a.Decoded ↔ imm20.toNat % 64 = a.code := by
  obtain ⟨assembly, i, code, hi, hrow⟩ := a
  cases ha
  have hcode := code_lt hrow
  have hrow' : (code, i) ∈ instructionsSecondary :=
    (show ∀ row ∈ instructions, row.2 ∈ [Instr.syscall, .special, .brk] →
      row ∈ instructionsSecondary by decide) _ hrow hi
  rw [decoded_iff, ← or_eq_iff hcode]
  have hoperands : (Assembly.syscall imm20).read
        ((Assembly.syscall imm20).word (BitVec.ofNat 32 code)) = (Assembly.syscall imm20).operands ↔
      code ||| imm20.toNat = imm20.toNat := by
    rw [← imm20Field_syscall hcode]
    simp only [Assembly.read, Assembly.operands, Operands.mk.injEq, Option.some.injEq, true_and,
      and_true]
    constructor
    · intro h
      rw [h, BitVec.toNat_setWidth, Nat.mod_eq_of_lt (by omega)]
    · intro h
      apply BitVec.eq_of_toNat_eq
      rw [h, BitVec.toNat_setWidth, Nat.mod_eq_of_lt (by omega)]
  refine and_congr ?_ hoperands
  constructor
  · intro h
    have hlookup : instructionsSecondary.lookup
        (fnField ((Assembly.syscall imm20).word (BitVec.ofNat 32 code))) = some i := by
      have hop : opField ((Assembly.syscall imm20).word (BitVec.ofNat 32 code)) = 0 :=
        opField_syscall
      rw [switchDispatch, word, if_pos hop] at h
      exact h
    -- No other code has the same instruction.
    rw [← fnField_syscall hcode]
    exact (show ∀ n : Fin 64, ∀ row ∈ instructionsSecondary,
      instructionsSecondary.lookup n.val = some row.2 → n.val = row.1 by decide +kernel)
        ⟨_, fnField_lt _⟩ _ hrow' hlookup
  · intro h
    exact dispatch_secondary hrow' opField_syscall ((fnField_syscall hcode).trans h)

/-- Every use of every macro: the engines dispatch the word to the instruction it was assembled
for, and the instruction gets its operands back, unless the macro is `ASSEMBLE_MULT_DIV`, or
`ASSEMBLE_SYSCALL` with an immediate that does not end in the code of the instruction. -/
theorem assembled_iff (a : Assembled) : a.Decoded ↔ a.WellPlaced := by
  have hcode := code_lt a.row
  have hcovered := a.covered
  cases ha : a.assembly with
  | aluImm | branchEqNe | branchBlezBgtz | jJal | loadImm | luiImm | storeImm =>
      have hprimary : a.assembly.isPrimary = true := by rw [ha]; rfl
      have hdispatch := dispatch_primary (row_primary hprimary hcovered a.row)
        (opField_primary hprimary hcode)
      have hdecoded := Assembled.decoded_of_dispatch (by simp [ha]) hdispatch
      simp [Assembled.WellPlaced, ha, hdecoded]
  | aluReg | jalr | jr | mf | mt | shiftImm | shiftReg =>
      have hsecondary : a.assembly.isSecondary = true := by rw [ha]; rfl
      obtain ⟨hop, hfn⟩ := fields_secondary hsecondary hcode
      have hdispatch := dispatch_secondary (row_secondary hsecondary hcovered a.row) hop hfn
      have hdecoded := Assembled.decoded_of_dispatch (by simp [ha]) hdispatch
      simp [Assembled.WellPlaced, ha, hdecoded]
  | branchGeneric rs imm16 =>
      rw [ha] at hcovered
      have hrow : (a.code, a.instr) ∈ instructionsBranch :=
        (show ∀ row ∈ instructions, row.2 ∈ [Instr.bltz, .bgez, .bltzal, .bgezal] →
          row ∈ instructionsBranch by decide) _ a.row hcovered
      -- The code goes to the `RT` field, of five bits.
      have hfive : a.code < 32 := (show ∀ row ∈ instructionsBranch, row.1 < 32 by decide) _ hrow
      obtain ⟨hop, hrt⟩ := fields_branchGeneric rs imm16 hfive
      rw [← ha] at hop hrt
      have hdecoded := Assembled.decoded_of_dispatch (by simp [ha]) (dispatch_branch hrow hop hrt)
      simp [Assembled.WellPlaced, ha, hdecoded]
  | multDiv rs rt =>
      rw [ha] at hcovered
      -- No primary instruction has the code of a multiplication or division.
      have hnone := dispatch_multDiv hcovered a.row
      rw [← ha] at hnone
      have hnot : ¬a.Decoded := by
        intro h
        have hsome := h.switch
        rw [Assembled.word, hnone] at hsome
        cases hsome
      simp [Assembled.WellPlaced, ha, hnot]
  | syscall imm20 =>
      rw [Assembled.decoded_syscall_iff ha]
      simp [Assembled.WellPlaced, ha]
  | nop =>
      rw [ha] at hcovered
      have hinstr : a.instr = .sll := List.mem_singleton.mp hcovered
      have hdispatch : switchDispatch a.word = some a.instr := by
        rw [Assembled.word, ha, hinstr]
        exact show switchDispatch ASSEMBLE_NOP = some .sll by decide
      have hdecoded := Assembled.decoded_of_dispatch (by simp [ha]) hdispatch
      simp [Assembled.WellPlaced, ha, hdecoded]
  | halt =>
      rw [ha] at hcovered
      have hinstr : a.instr = .brk := List.mem_singleton.mp hcovered
      have hdispatch : switchDispatch a.word = some a.instr := by
        rw [Assembled.word, ha, hinstr]
        exact show switchDispatch ASSEMBLE_HALT = some .brk by decide
      have hdecoded := Assembled.decoded_of_dispatch (by simp [ha]) hdispatch
      simp [Assembled.WellPlaced, ha, hdecoded]

/-- `MULT`, of any two registers. -/
abbrev assembledMult (rs rt : Fin 32) : Assembled :=
  ⟨.multDiv rs rt, .mult, MULT_FN, by simp [Assembly.instrs], by decide⟩

/-- `SYSCALL` with 0 as its immediate, as the tests write it. -/
abbrev assembledSyscall : Assembled := ⟨.syscall 0, .syscall, SYSCALL_FN, by decide, by decide⟩

/-- No engine runs the first word as a multiplication, and the second one comes back with its
own code as the immediate. -/
theorem assembler_disagrees : ¬(assembledMult 1 2).Decoded ∧ ¬assembledSyscall.Decoded := by
  constructor
  · intro h
    exact absurd h.switch (by decide)
  · intro h
    exact absurd h.operands (by decide)

end MipsEngines
