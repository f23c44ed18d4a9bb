import MipsEngines.Proofs.ArchDecode
import MipsEngines.Proofs.Arithmetic
import MipsEngines.Proofs.Unaligned

/-!
# `MipsEngines.Proofs.ArchValues`: the implementations compute the architecture's values

One lemma for each template of `instructions.h`: the row of a handler has an implementation,
and where the architecture defines a result, that is what the implementation gives. The
exceptions are hypotheses here. They are the defects of `Proofs.Arithmetic` and
`Proofs.Unaligned`: traps on the unsigned sum, a signed division that is not, and unaligned
stores of a whole word.
-/

set_option autoImplicit false

namespace MipsEngines

open Lib Arch

/-! ### Integers as words -/

theorem ofInt_toInt_add (x : U32) (z : Int) :
    BitVec.ofInt 32 (x.toInt + z) = x + BitVec.ofInt 32 z := by
  rw [BitVec.ofInt_add, BitVec.ofInt_toInt]

theorem ofInt_sub (y z : Int) : BitVec.ofInt 32 (y - z) = BitVec.ofInt 32 y - BitVec.ofInt 32 z := by
  rw [Int.sub_eq_add_neg, BitVec.ofInt_add, BitVec.ofInt_neg, BitVec.sub_eq_add_neg]

theorem fits_eq_ok {z : Int} {v : U32} (h : fits z = .ok v) : v = BitVec.ofInt 32 z := by
  unfold fits at h
  split_ifs at h
  cases h
  rfl

/-! ### The ALU -/

/-- The unsigned sum or difference that makes `ADD` and `SUB` store nothing. -/
def AluOp.Traps (x y : U32) : AluOp → Prop
  | .add => 2 ^ 32 ≤ x.toNat + y.toNat
  | .sub => x.toNat + 2 ^ 31 < y.toNat
  | _ => False

instance (x y : U32) : (op : AluOp) → Decidable (AluOp.Traps x y op)
  | .add => inferInstanceAs (Decidable (_ ≤ _))
  | .sub => inferInstanceAs (Decidable (_ < _))
  | .addu | .subu | .slt | .sltu | .and | .or | .xor | .nor => inferInstanceAs (Decidable False)

theorem aluReg_value {op : AluOp} {x y v : U32} (rd rs rt : Fin 32) (h : op.value x y = .ok v)
    (htraps : ¬ AluOp.Traps x y op) :
    ∃ impl, (Instruction.alu op rd rs rt).handler.template = .aluReg impl ∧ impl x y = some v := by
  cases op with
  | add =>
      refine ⟨_, rfl, ?_⟩
      rw [itpAddImpl_eq, if_neg (show ¬ 2 ^ 32 ≤ x.toNat + y.toNat from htraps), fits_eq_ok h,
        ofInt_toInt_add, BitVec.ofInt_toInt]
  | sub =>
      refine ⟨_, rfl, ?_⟩
      rw [itpSubImpl_eq, if_neg (show ¬ x.toNat + 2 ^ 31 < y.toNat from htraps), fits_eq_ok h,
        ofInt_sub, BitVec.ofInt_toInt, BitVec.ofInt_toInt]
  | addu =>
      cases h
      refine ⟨_, rfl, congrArg some ?_⟩
      simp [BitVec.ofNat_add]
  | subu =>
      cases h
      refine ⟨_, rfl, congrArg some ?_⟩
      rw [ofInt_sub]
      simp
  | slt | sltu =>
      cases h
      refine ⟨_, rfl, congrArg some ?_⟩
      simp [Arch.ofBool, ltS32, BitVec.slt, BitVec.lt_def]
  | and | or | xor | nor =>
      cases h
      exact ⟨_, rfl, rfl⟩

/-- The same for `ADDI`, whose immediate has a sign. -/
def ImmOp.Traps (x : U32) (imm : U16) : ImmOp → Prop
  | .addi => 2 ^ 32 ≤ (x.toNat : Int) + imm.toInt
  | _ => False

instance (x : U32) (imm : U16) : (op : ImmOp) → Decidable (ImmOp.Traps x imm op)
  | .addi => inferInstanceAs (Decidable (_ ≤ _))
  | .addiu | .slti | .sltiu | .andi | .ori | .xori => inferInstanceAs (Decidable False)

theorem aluImm_value {op : ImmOp} {x v : U32} {imm : U16} (rt rs : Fin 32)
    (h : op.value x imm = .ok v) (htraps : ¬ ImmOp.Traps x imm op) :
    ∃ impl, (Instruction.imm op rt rs imm).handler.template = .aluImm impl ∧
      impl x imm = some v := by
  cases op with
  | addi =>
      refine ⟨_, rfl, ?_⟩
      rw [itpAddiImpl_eq, if_neg (show ¬ 2 ^ 32 ≤ (x.toNat : Int) + imm.toInt from htraps),
        fits_eq_ok h, ofInt_toInt_add]
      rfl
  | addiu =>
      cases h
      exact ⟨_, rfl, congrArg some (ofInt_toInt_add x _).symm⟩
  | slti =>
      cases h
      refine ⟨_, rfl, congrArg some ?_⟩
      have himm : (imm.signExtend 32).toInt = imm.toInt := BitVec.toInt_signExtend_of_le (by decide)
      simp [Arch.ofBool, ltS32, BitVec.slt, himm]
  | sltiu =>
      cases h
      exact ⟨_, rfl, congrArg some (by simp [Arch.ofBool, BitVec.lt_def, BitVec.signExtend])⟩
  | andi | ori | xori =>
      cases h
      refine ⟨_, rfl, congrArg some ?_⟩
      rw [BitVec.ofNat_toNat]

/-! ### Shifts -/

theorem sll_value (v : U32) (k : Nat) : v <<< k = ShiftOp.sll.value v k := by
  apply BitVec.eq_of_toNat_eq
  simp [ShiftOp.value, Nat.shiftLeft_eq]

theorem srl_value (v : U32) (k : Nat) : v >>> k = ShiftOp.srl.value v k := by
  have hv := v.isLt
  have hle := Nat.div_le_self v.toNat (2 ^ k)
  apply BitVec.eq_of_toNat_eq
  rw [ShiftOp.value, BitVec.toNat_ushiftRight, Nat.shiftRight_eq_div_pow, BitVec.toNat_ofNat,
    Nat.mod_eq_of_lt (by omega)]

theorem sra_value (v : U32) (k : Nat) : v.sshiftRight k = ShiftOp.sra.value v k := by
  rw [ShiftOp.value, BitVec.sshiftRight, Int.shiftRight_eq_div_pow]
  simp

theorem shift_value (op : ShiftOp) (rd rt amount : Fin 32) (v : U32) (k : Nat) :
    ∃ impl, (Instruction.shift op rd rt amount).handler.template = .shiftImm impl ∧
      impl v k = op.value v k := by
  cases op with
  | sll => exact ⟨_, rfl, sll_value v k⟩
  | srl => exact ⟨_, rfl, srl_value v k⟩
  | sra => exact ⟨_, rfl, sra_value v k⟩

/-- Only five bits of the register count. -/
theorem shiftVar_value (op : ShiftOp) (rd rt rs : Fin 32) (x v : U32) :
    ∃ impl, (Instruction.shiftVar op rd rt rs).handler.template = .shiftReg impl ∧
      impl x v = op.value v (x.toNat % 32) := by
  have hmask : x.toNat % 32 = (x &&& 0x1f).toNat := (toNat_and_mask x 0x1f 5 rfl).symm
  rw [hmask]
  cases op with
  | sll => exact ⟨_, rfl, sll_value v _⟩
  | srl => exact ⟨_, rfl, srl_value v _⟩
  | sra => exact ⟨_, rfl, sra_value v _⟩

/-! ### Multiplication and division -/

theorem loHi_signed (x y : U32) :
    itpMultImpl x y =
      (BitVec.ofInt 32 (x.toInt * y.toInt), BitVec.ofInt 32 (x.toInt * y.toInt / 2 ^ 32)) := by
  have hproduct : x.signExtend 64 * y.signExtend 64 = BitVec.ofInt 64 (x.toInt * y.toInt) := by
    rw [BitVec.ofInt_mul]
    rfl
  rw [itpMultImpl, hproduct, loHi]
  generalize x.toInt * y.toInt = z
  refine Prod.ext (BitVec.eq_of_toNat_eq ?_) (BitVec.eq_of_toNat_eq ?_)
  · simp only [BitVec.toNat_setWidth, BitVec.toNat_ofInt]
    omega
  · simp only [BitVec.toNat_setWidth, BitVec.toNat_ushiftRight, BitVec.toNat_ofInt,
      Nat.shiftRight_eq_div_pow]
    omega

theorem loHi_unsigned (x y : U32) :
    itpMultuImpl x y =
      (BitVec.ofNat 32 (x.toNat * y.toNat), BitVec.ofNat 32 (x.toNat * y.toNat / 2 ^ 32)) := by
  have hproduct : x.setWidth 64 * y.setWidth 64 = BitVec.ofNat 64 (x.toNat * y.toNat) := by
    rw [BitVec.ofNat_mul, BitVec.ofNat_toNat, BitVec.ofNat_toNat]
  rw [itpMultuImpl, hproduct, loHi]
  generalize x.toNat * y.toNat = z
  refine Prod.ext (BitVec.eq_of_toNat_eq ?_) (BitVec.eq_of_toNat_eq ?_)
  · simp only [BitVec.toNat_setWidth, BitVec.toNat_ofNat]
    omega
  · simp only [BitVec.toNat_setWidth, BitVec.toNat_ushiftRight, BitVec.toNat_ofNat,
      Nat.shiftRight_eq_div_pow]
    omega

/-- The operands that `ITP_DIV_IMPL` divides as if they had no sign. -/
def MulDivOp.DividesUnsigned (x y : U32) : MulDivOp → Prop
  | .div => ¬ DividesSigned x y
  | _ => False

instance (x y : U32) : (op : MulDivOp) → Decidable (MulDivOp.DividesUnsigned x y op)
  | .div => inferInstanceAs (Decidable (¬ DividesSigned x y))
  | .mult | .multu | .divu => inferInstanceAs (Decidable False)

theorem mulDiv_value {op : MulDivOp} {x y hi lo : U32} (rs rt : Fin 32)
    (h : op.value x y = .ok (hi, lo)) (hsigned : ¬ MulDivOp.DividesUnsigned x y op) :
    ∃ impl, (Instruction.mulDiv op rs rt).handler.template = .multDiv impl ∧
      impl x y = (lo, hi) := by
  cases op with
  | mult =>
      cases h
      exact ⟨_, rfl, loHi_signed x y⟩
  | multu =>
      cases h
      exact ⟨_, rfl, loHi_unsigned x y⟩
  | div =>
      have hy : y ≠ 0 := fun hy => by simp [MulDivOp.value, hy] at h
      rw [MulDivOp.value, if_neg hy] at h
      cases h
      obtain ⟨hquotient, hremainder, -⟩ :=
        (itpDivImpl_signed_iff x y hy).mpr (Classical.not_not.mp hsigned)
      exact ⟨_, rfl, Prod.ext hquotient hremainder⟩
  | divu =>
      have hy : y ≠ 0 := fun hy => by simp [MulDivOp.value, hy] at h
      rw [MulDivOp.value, if_neg hy] at h
      cases h
      refine ⟨_, rfl, ?_⟩
      rw [itpDivuImpl, if_pos hy]
      refine Prod.ext (BitVec.eq_of_toNat_eq ?_) (BitVec.eq_of_toNat_eq ?_)
      · have hle := Nat.div_le_self x.toNat y.toNat
        rw [BitVec.toNat_udiv, BitVec.toNat_ofNat, Nat.mod_eq_of_lt (by omega)]
      · have hlt : x.toNat % y.toNat < 2 ^ 32 := Nat.lt_of_le_of_lt (Nat.mod_le _ _) x.isLt
        rw [BitVec.toNat_umod, BitVec.toNat_ofNat, Nat.mod_eq_of_lt hlt]

/-! ### Memory -/

section Memory

variable {memory : Memory} {a : State} {x old v : U32}

theorem byte_flat (hflat : flat memory = a.bytes) {b : U8} (h : a.byte x = .ok b) :
    flat memory x = some b := by
  rw [hflat]
  unfold State.byte at h
  cases hb : a.bytes x with
  | none => rw [hb] at h; cases h
  | some c => rw [hb] at h; cases h; rfl

theorem half_value (hflat : flat memory = a.bytes) {d : U16} (h : a.half x = .ok d) :
    memoryReadU16 memory x = .ok d := by
  unfold State.half at h
  split_ifs at h with halign
  obtain ⟨b₀, h₀, h⟩ := bind_eq_ok.mp h
  obtain ⟨b₁, h₁, h⟩ := bind_eq_ok.mp h
  cases h
  exact memoryReadU16_eq (by omega) (byte_flat hflat h₀) (byte_flat hflat h₁)

theorem word_value (hflat : flat memory = a.bytes) (h : a.word x = .ok v) :
    memoryReadU32 memory x = .ok v := by
  unfold State.word at h
  split_ifs at h with halign
  obtain ⟨b₀, h₀, h⟩ := bind_eq_ok.mp h
  obtain ⟨b₁, h₁, h⟩ := bind_eq_ok.mp h
  obtain ⟨b₂, h₂, h⟩ := bind_eq_ok.mp h
  obtain ⟨b₃, h₃, h⟩ := bind_eq_ok.mp h
  cases h
  exact memoryReadU32_eq (by omega) (byte_flat hflat h₀) (byte_flat hflat h₁)
    (byte_flat hflat h₂) (byte_flat hflat h₃)

/-- Two words with the same bytes in the same places. -/
theorem Merged.unique {p : Nat → Prop} [DecidablePred p] {w : U32}
    (hv : Merged memory x p old v) (hw : Merged memory x p old w) : v = w := by
  apply BitVec.eq_of_getLsbD_eq
  intro i hi
  rw [hv i hi, hw i hi]

/-- The bytes that a merge puts together. -/
theorem merge_merged (hflat : flat memory = a.bytes) {p : Nat → Bool}
    (h : a.merge x old p = .ok v) :
    Merged memory x (fun j => p j = true) old v ∧
      ∀ j < 4, p j = true → Mapped memory (x + BitVec.ofNat 32 j) := by
  have hget : ∀ j b, (if p j then a.byte (x + BitVec.ofNat 32 j) else .ok (State.byteOfWord old j))
      = .ok b → (p j = true → Mapped memory (x + BitVec.ofNat 32 j)) ∧
        b = if p j then flatByte memory (x + BitVec.ofNat 32 j) else State.byteOfWord old j := by
    intro j b hb
    cases hp : p j with
    | false =>
        rw [hp] at hb
        cases hb
        exact ⟨by simp, rfl⟩
    | true =>
        rw [hp, if_pos rfl] at hb
        have hbyte := byte_flat hflat hb
        exact ⟨fun _ => Option.isSome_of_mem hbyte, by simp [flatByte, hbyte]⟩
  unfold State.merge at h
  obtain ⟨b₀, h₀, h⟩ := bind_eq_ok.mp h
  obtain ⟨b₁, h₁, h⟩ := bind_eq_ok.mp h
  obtain ⟨b₂, h₂, h⟩ := bind_eq_ok.mp h
  obtain ⟨b₃, h₃, h⟩ := bind_eq_ok.mp h
  cases h
  obtain ⟨hm₀, rfl⟩ := hget 0 b₀ h₀
  obtain ⟨hm₁, rfl⟩ := hget 1 b₁ h₁
  obtain ⟨hm₂, rfl⟩ := hget 2 b₂ h₂
  obtain ⟨hm₃, rfl⟩ := hget 3 b₃ h₃
  refine ⟨fun i hi => ?_, fun j hj hp => ?_⟩
  · simp only [BitVec.getLsbD_append]
    have hbyte : ∀ j, j < 4 → i / 8 = j → (if p j then flatByte memory (x + BitVec.ofNat 32 j)
        else State.byteOfWord old j).getLsbD (i % 8) =
          if p (i / 8) = true then (flatByte memory (x + BitVec.ofNat 32 (i / 8))).getLsbD (i % 8)
          else old.getLsbD i := by
      rintro j hj rfl
      split_ifs
      · rfl
      · rw [State.byteOfWord, BitVec.getLsbD_extractLsb', Nat.div_add_mod]
        simp [Nat.mod_lt]
    -- One case a byte; the bit is found in the append of that byte.
    rcases (show i / 8 = 0 ∨ i / 8 = 1 ∨ i / 8 = 2 ∨ i / 8 = 3 by omega) with h | h | h | h
    · rw [if_pos (by omega), ← hbyte 0 (by decide) h, show i % 8 = i by omega]
    · rw [if_neg (by omega), if_pos (by omega), ← hbyte 1 (by decide) h,
        show i % 8 = i - 8 by omega]
    · rw [if_neg (by omega), if_neg (by omega), if_pos (by omega), ← hbyte 2 (by decide) h,
        show i % 8 = i - 8 - 8 by omega]
    · rw [if_neg (by omega), if_neg (by omega), if_neg (by omega), ← hbyte 3 (by decide) h,
        show i % 8 = i - 8 - 8 - 8 by omega]
  · rcases (show j = 0 ∨ j = 1 ∨ j = 2 ∨ j = 3 by omega) with rfl | rfl | rfl | rfl
    · exact hm₀ hp
    · exact hm₁ hp
    · exact hm₂ hp
    · exact hm₃ hp

/-- A load, where the architecture has a value for it. -/
theorem load_value {op : LoadOp} (rt base : Fin 32) (offset : U16) (hflat : flat memory = a.bytes)
    (h : a.load x old op = .ok v) :
    ∃ impl, (Instruction.load op rt base offset).handler.template = .loadImm impl ∧
      impl memory x old = .ok v := by
  cases op with
  | lb | lbu =>
      obtain ⟨b, hb, h⟩ := bind_eq_ok.mp h
      cases h
      refine ⟨_, rfl, ?_⟩
      simp only [itpLbImpl, itpLbuImpl, memoryReadU8_eq (byte_flat hflat hb), BitVec.ofNat_toNat]
      rfl
  | lh | lhu =>
      obtain ⟨d, hd, h⟩ := bind_eq_ok.mp h
      cases h
      refine ⟨_, rfl, ?_⟩
      simp only [itpLhImpl, itpLhuImpl, half_value hflat hd, BitVec.ofNat_toNat]
      rfl
  | lw => exact ⟨_, rfl, word_value hflat h⟩
  | lwl =>
      -- The address is three past the word that is merged into.
      have hx : x = x - 3 + 3 := (BitVec.sub_add_cancel x 3).symm
      have hmerge : a.merge (x - 3) old (fun j => decide (3 ≤ x.toNat % 4 + j)) = .ok v := h
      obtain ⟨hmerged, hmapped⟩ := merge_merged hflat hmerge
      have hlast : Mapped memory (x - 3 + 3) := hmapped 3 (by decide) (by simp)
      obtain ⟨w, hw, hmerged'⟩ := itpLwlImpl_merged old hlast
      refine ⟨_, rfl, ?_⟩
      show itpLwlImpl memory x old = .ok v
      rw [← hx] at hw hmerged'
      rw [hw, hmerged'.unique (w := v)]
      simpa using hmerged
  | lwr =>
      have hmerge : a.merge x old (fun j => decide (x.toNat % 4 + j < 4)) = .ok v := h
      obtain ⟨hmerged, hmapped⟩ := merge_merged hflat hmerge
      have hfirst : Mapped memory x := by
        have hzero := hmapped 0 (by decide) (decide_eq_true (Nat.mod_lt _ (by decide)))
        simpa using hzero
      obtain ⟨w, hw, hmerged'⟩ := itpLwrImpl_merged old hfirst
      refine ⟨_, rfl, ?_⟩
      show itpLwrImpl memory x old = .ok v
      rw [hw, hmerged'.unique (w := v)]
      simpa using hmerged

/-- The stores whose implementation writes another part of memory than it should. -/
def StoreOp.WholeWord (x : U32) : StoreOp → Prop
  | .swl => True
  | .swr => x.toNat % 4 ≠ 0
  | _ => False

instance (x : U32) : (op : StoreOp) → Decidable (StoreOp.WholeWord x op)
  | .swl => inferInstanceAs (Decidable True)
  | .swr => inferInstanceAs (Decidable (_ ≠ _))
  | .sb | .sh | .sw => inferInstanceAs (Decidable False)

theorem storing_value (hflat : flat memory = a.bytes) {n : Nat} {f g : Nat → U8}
    {data : U32 → Option U8} (hn : 0 < n) (hfit : InPage x n) (hsame : ∀ i < n, g i = f i)
    (h : a.storing x n f = .ok data) :
    ∃ memory', memoryStore memory x n g = .ok memory' ∧ flat memory' = a.bytes.write data := by
  unfold State.storing at h
  split_ifs at h with hall
  cases h
  have hmapped : Mapped memory x := by
    have hzero := List.all_eq_true.mp hall 0 (List.mem_range.mpr hn)
    rw [Mapped, hflat]
    simpa using hzero
  obtain ⟨memory', hstore, hwritten⟩ := memoryStore_eq g hmapped hfit
  refine ⟨memory', hstore, ?_⟩
  rw [hwritten, hflat]
  congr 1
  funext b
  unfold rangeData State.bytesFrom
  split_ifs with hb
  · rw [hsame _ hb]
  · rfl

/-- Byte `i` of the low part of a word. -/
theorem byteOf_setWidth {n : Nat} {i : Nat} (hi : 8 * i + 8 ≤ n) :
    byteOf (v.setWidth n) i = State.byteOfWord v i := by
  apply BitVec.eq_of_getLsbD_eq
  intro j hj
  rw [byteOf, State.byteOfWord, BitVec.getLsbD_extractLsb', BitVec.getLsbD_extractLsb',
    BitVec.getLsbD_setWidth]
  have hlt : 8 * i + j < n := by omega
  simp [hlt]

/-- A store, where the architecture performs it. -/
theorem store_value {op : StoreOp} (rt base : Fin 32) (offset : U16) (hflat : flat memory = a.bytes)
    {data : U32 → Option U8} (h : a.store x v op = .ok data) (hpart : ¬ StoreOp.WholeWord x op) :
    ∃ impl, (Instruction.store op rt base offset).handler.template = .storeImm impl ∧
      ∃ memory', impl memory x v = .ok memory' ∧ flat memory' = a.bytes.write data := by
  cases op with
  | sb =>
      refine ⟨_, rfl, storing_value hflat (by decide) (by unfold InPage; omega) (fun i hi => ?_) h⟩
      exact byteOf_setWidth (by omega)
  | sh =>
      simp only [State.store] at h
      split_ifs at h with halign
      refine ⟨_, rfl, storing_value hflat (by decide) (by unfold InPage; omega) (fun i hi => ?_) h⟩
      exact byteOf_setWidth (by omega)
  | sw =>
      simp only [State.store] at h
      split_ifs at h with halign
      exact ⟨_, rfl, storing_value hflat (by decide) (by unfold InPage; omega) (fun i hi => rfl) h⟩
  | swl => exact absurd trivial hpart
  | swr =>
      have halign : x.toNat % 4 = 0 := Classical.not_not.mp hpart
      simp only [State.store, halign] at h
      exact ⟨_, rfl, storing_value hflat (by decide) (by unfold InPage; omega) (fun i hi => rfl) h⟩

end Memory

end MipsEngines
