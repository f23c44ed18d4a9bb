import MipsEngines.Model.Architecture
import MipsEngines.Proofs.ControlTransfers

/-!
# `MipsEngines.Proofs.ArchDecode`: the engines decode the architecture's instructions

The architecture takes a word apart by division, the engines by shifts and masks, and the
opcode tables are written down twice, once in `Arch.decode` and once in the X-macro lists.
`decode_spec` says that they agree: a word that the architecture decodes is dispatched to the
handler of that name, and the handler finds the operands where the architecture does.
`dispatch_of_reserved` is the other direction: of the words that the architecture reserves,
the engines know three instructions of later versions.
-/

set_option autoImplicit false

namespace MipsEngines

open Lib Arch

/-! ### Fields -/

/-- A shift and a mask are a division and a remainder. -/
theorem toNat_field (w mask : U32) (lo width : Nat) (hmask : mask.toNat = 2 ^ width - 1) :
    ((w >>> lo) &&& mask).toNat = bitsAt w lo width := by
  rw [toNat_and_mask _ _ width hmask, BitVec.toNat_ushiftRight, Nat.shiftRight_eq_div_pow]
  rfl

theorem opField_eq (w : U32) : opField w = bitsAt w 26 6 := toNat_field w _ 26 6 rfl

theorem fnField_eq (w : U32) : fnField w = bitsAt w 0 6 := toNat_field w _ 0 6 rfl

theorem rtField_eq (w : U32) : rtField w = bitsAt w 16 5 := toNat_field w _ 16 5 rfl

theorem shField_eq (w : U32) : shField w = (regAt w 6).val := toNat_field w _ 6 5 rfl

theorem rs_eq (w : U32) : rs w = gpr (regAt w 21) :=
  congrArg gpr (Fin.ext (toNat_field w _ 21 5 rfl))

theorem rt_eq (w : U32) : rt w = gpr (regAt w 16) :=
  congrArg gpr (Fin.ext (toNat_field w _ 16 5 rfl))

theorem rd_eq (w : U32) : rd w = gpr (regAt w 11) :=
  congrArg gpr (Fin.ext (toNat_field w _ 11 5 rfl))

theorem imm16Field_eq (w : U32) : imm16Field w = immediateOf w := by
  apply BitVec.eq_of_toNat_eq
  rw [imm16Field, BitVec.toNat_setWidth, toNat_field w _ 0 16 rfl, immediateOf, BitVec.toNat_ofNat]

theorem imm26Field_eq (w : U32) :
    (imm26Field w).toNat = (BitVec.ofNat 26 (bitsAt w 0 26)).toNat := by
  rw [imm26Field, toNat_field w _ 0 26 rfl, BitVec.toNat_ofNat]
  exact (Nat.mod_eq_of_lt (Nat.mod_lt _ (Nat.two_pow_pos 26))).symm

/-! ### Names and operands -/

/-- The handler of an instruction. -/
def Arch.Instruction.handler : Instruction → Instr
  | .alu .add .. => .add
  | .alu .addu .. => .addu
  | .alu .sub .. => .sub
  | .alu .subu .. => .subu
  | .alu .slt .. => .slt
  | .alu .sltu .. => .sltu
  | .alu .and .. => .and
  | .alu .or .. => .or
  | .alu .xor .. => .xor
  | .alu .nor .. => .nor
  | .imm .addi .. => .addi
  | .imm .addiu .. => .addiu
  | .imm .slti .. => .slti
  | .imm .sltiu .. => .sltiu
  | .imm .andi .. => .andi
  | .imm .ori .. => .ori
  | .imm .xori .. => .xori
  | .lui .. => .lui
  | .shift .sll .. => .sll
  | .shift .srl .. => .srl
  | .shift .sra .. => .sra
  | .shiftVar .sll .. => .sllv
  | .shiftVar .srl .. => .srlv
  | .shiftVar .sra .. => .srav
  | .mulDiv .mult .. => .mult
  | .mulDiv .multu .. => .multu
  | .mulDiv .div .. => .div
  | .mulDiv .divu .. => .divu
  | .mfhi _ => .mfhi
  | .mflo _ => .mflo
  | .mthi _ => .mthi
  | .mtlo _ => .mtlo
  | .load .lb .. => .lb
  | .load .lbu .. => .lbu
  | .load .lh .. => .lh
  | .load .lhu .. => .lhu
  | .load .lw .. => .lw
  | .load .lwl .. => .lwl
  | .load .lwr .. => .lwr
  | .store .sb .. => .sb
  | .store .sh .. => .sh
  | .store .sw .. => .sw
  | .store .swl .. => .swl
  | .store .swr .. => .swr
  | .branch .eq _ .. => .beq
  | .branch .ne _ .. => .bne
  | .branch .lez _ .. => .blez
  | .branch .gtz _ .. => .bgtz
  | .branch .ltz false .. => .bltz
  | .branch .ltz true .. => .bltzal
  | .branch .gez false .. => .bgez
  | .branch .gez true .. => .bgezal
  | .jump false _ => .j
  | .jump true _ => .jal
  | .jr _ => .jr
  | .jalr .. => .jalr
  | .sync => .special
  | .syscall => .syscall
  | .break => .brk

/-- The operands of an instruction are in the fields of a word. -/
def Arch.Instruction.InWord (w : U32) : Instruction → Prop
  | .alu _ d s t | .shiftVar _ d t s => rd w = gpr d ∧ rs w = gpr s ∧ rt w = gpr t
  | .imm _ t s v | .load _ t s v | .store _ t s v =>
      rt w = gpr t ∧ rs w = gpr s ∧ imm16Field w = v
  | .lui t v => rt w = gpr t ∧ imm16Field w = v
  | .shift _ d t amount => rd w = gpr d ∧ rt w = gpr t ∧ shField w = amount.val
  | .mulDiv _ s t => rs w = gpr s ∧ rt w = gpr t
  | .mfhi d | .mflo d => rd w = gpr d
  | .mthi s | .mtlo s | .jr s => rs w = gpr s
  | .branch cond link s t v => rs w = gpr s ∧ rt w = gpr t ∧ imm16Field w = v ∧
      (link = true → cond = .ltz ∨ cond = .gez)
  | .jump _ index => (imm26Field w).toNat = index.toNat
  | .jalr d s => rd w = gpr d ∧ rs w = gpr s
  | .sync | .syscall | .break => True

variable {w : U32} {i : Instruction}

theorem switchDispatch_special (h : bitsAt w 26 6 = 0) :
    switchDispatch w = instructionsSecondary.lookup (bitsAt w 0 6) := by
  rw [switchDispatch, opField_eq, h, if_pos rfl, fnField_eq]

theorem switchDispatch_regimm (h : bitsAt w 26 6 = 1) :
    switchDispatch w = instructionsBranch.lookup (bitsAt w 16 5) := by
  rw [switchDispatch, opField_eq, h, if_neg (by decide), if_pos rfl, rtField_eq]

theorem decodeSpecial_spec (hop : bitsAt w 26 6 = 0)
    (h : decodeSpecial w (regAt w 21) (regAt w 16) (regAt w 11) (regAt w 6) = some i) :
    switchDispatch w = some i.handler ∧ i.InWord w := by
  rw [switchDispatch_special hop]
  unfold decodeSpecial at h
  split at h
  all_goals try cases h
  all_goals
    rename_i hfn
    rw [hfn]
    exact ⟨rfl, by simp [Instruction.InWord, rs_eq, rt_eq, rd_eq, shField_eq]⟩

theorem decodeRegimm_spec (hop : bitsAt w 26 6 = 1)
    (h : decodeRegimm w (regAt w 21) (regAt w 16) = some i) :
    switchDispatch w = some i.handler ∧ i.InWord w := by
  rw [switchDispatch_regimm hop]
  unfold decodeRegimm at h
  split at h
  all_goals try cases h
  all_goals
    rename_i hrt
    rw [hrt]
    exact ⟨rfl, by simp [Instruction.InWord, rs_eq, rt_eq, imm16Field_eq]⟩

/-- A word that the architecture decodes goes to the handler of that name, with the same
operands. -/
theorem decode_spec (h : decode w = some i) : switchDispatch w = some i.handler ∧ i.InWord w := by
  unfold decode at h
  dsimp only at h
  split at h
  case h_1 hop => exact decodeSpecial_spec hop h
  case h_2 hop => exact decodeRegimm_spec hop h
  all_goals try cases h
  all_goals
    rename_i hop
    rw [switchDispatch, opField_eq, hop]
    exact ⟨rfl, by simp [Instruction.InWord, rs_eq, rt_eq, imm16Field_eq, imm26Field_eq]⟩

/-- The instructions of later versions that the engines know. -/
def Instr.isExtension : Instr → Bool
  | .ll | .sc | .rdhwr => true
  | _ => false

theorem lookup_special_of_reserved {rs rt rd amount : Fin 32}
    (h : decodeSpecial w rs rt rd amount = none) :
    instructionsSecondary.lookup (bitsAt w 0 6) = none := by
  unfold decodeSpecial at h
  split at h
  all_goals try cases h
  simp only [instructionsSecondary, List.lookup_eq_none_iff, List.forall_mem_cons, bne_iff_ne]
  and_intros
  all_goals first | assumption | exact fun _ h => nomatch h

theorem lookup_regimm_of_reserved {rs rt : Fin 32} (h : decodeRegimm w rs rt = none) :
    instructionsBranch.lookup (bitsAt w 16 5) = none := by
  unfold decodeRegimm at h
  split at h
  all_goals try cases h
  simp only [instructionsBranch, List.lookup_eq_none_iff, List.forall_mem_cons, bne_iff_ne]
  and_intros
  all_goals first | assumption | exact fun _ h => nomatch h

/-- A word that the architecture reserves has no handler, or that of an extension. -/
theorem dispatch_of_reserved (h : decode w = none) :
    switchDispatch w = none ∨ ∃ k, switchDispatch w = some k ∧ k.isExtension = true := by
  unfold decode at h
  dsimp only at h
  split at h
  case h_1 hop => exact .inl ((switchDispatch_special hop).trans (lookup_special_of_reserved h))
  case h_2 hop => exact .inl ((switchDispatch_regimm hop).trans (lookup_regimm_of_reserved h))
  all_goals try cases h
  -- No opcode of the architecture. Three rows of the list have another one.
  have hrows : ∀ row ∈ instructionsPrimary, row.2.isExtension = true ∨ bitsAt w 26 6 ≠ row.1 := by
    simp only [instructionsPrimary, List.forall_mem_cons]
    and_intros
    all_goals first | exact .inl rfl | exact .inr (by assumption) | exact fun _ h => nomatch h
  have hdispatch : switchDispatch w = instructionsPrimary.lookup (bitsAt w 26 6) := by
    rw [switchDispatch, opField_eq, if_neg (by assumption), if_neg (by assumption)]
  rw [hdispatch]
  cases hlookup : instructionsPrimary.lookup (bitsAt w 26 6) with
  | none => exact .inl rfl
  | some k =>
      obtain ⟨l₁, l₂, hlist, -⟩ := List.lookup_eq_some_iff.mp hlookup
      have hrow := hrows (bitsAt w 26 6, k) (by rw [hlist]; simp)
      exact .inr ⟨k, rfl, hrow.resolve_right fun hne => hne rfl⟩

end MipsEngines
