import MipsEngines.Model.Engines

/-!
# `MipsEngines.Proofs.Arithmetic`: division and the trapping instructions

Both groups hold their operands as `u32`. `ITP_DIV_IMPL` casts only in its
special arms and divides unsigned in the last one. `ITP_ADD_IMPL`,
`ITP_ADDI_IMPL` and `ITP_SUB_IMPL` compare a 64-bit result of zero-extended
operands with a bound. So each result depends on the signs of the operands, and
the main theorems give the sign regions in which it is the signed one.

Every proof goes through `toInt_eq`, which reads a word by its sign. What is left
in a region is arithmetic on naturals.
-/

set_option autoImplicit false

namespace MipsEngines

/-! ### Signed words -/

/-- A word is non-negative and its own value, or negative and short of `2 ^ 32`. -/
theorem toInt_eq (x : U32) :
    (x.toNat < 2 ^ 31 ∧ x.toInt = x.toNat) ∨
      (2 ^ 31 ≤ x.toNat ∧ x.toNat < 2 ^ 32 ∧ x.toInt = -((2 ^ 32 - x.toNat : Nat) : Int)) := by
  have hx := x.isLt
  rw [BitVec.toInt_eq_toNat_cond]
  split <;> omega

/-- The low 32 bits of a small natural number. -/
theorem toNat_ofInt_natCast {n : Nat} (h : n < 2 ^ 32) : (BitVec.ofInt 32 (n : Int)).toNat = n := by
  rw [BitVec.ofInt_natCast, BitVec.toNat_ofNat, Nat.mod_eq_of_lt h]

/-- The low 32 bits of a small negative number. Zero is its own negative. -/
theorem toNat_ofInt_neg {n : Nat} (h : n < 2 ^ 32) :
    (BitVec.ofInt 32 (-(n : Int))).toNat = if n = 0 then 0 else 2 ^ 32 - n := by
  rw [BitVec.toNat_ofInt]
  split <;> omega

/-- A word equals the low bits of an integer when its value does. -/
theorem eq_ofInt_iff (v : U32) (z : Int) :
    v = BitVec.ofInt 32 z ↔ v.toNat = (BitVec.ofInt 32 z).toNat :=
  BitVec.toNat_inj.symm

/-! ### Division -/

/-- What a signed division of `x` by `y` is to leave in `LO` and `HI`. -/
structure SignedDivision (x y lo hi : U32) : Prop where
  quotient : lo = BitVec.ofInt 32 (x.toInt.tdiv y.toInt)
  remainder : hi = BitVec.ofInt 32 (x.toInt.tmod y.toInt)
  recombines : x = lo * y + hi
  small : hi.toInt.natAbs < y.toInt.natAbs
  sign : hi = 0 ∨ (hi.toInt < 0 ↔ x.toInt < 0)

/-- A remainder is smaller than its divisor, so it fits in a word. -/
theorem toInt_ofInt_tmod (x y : U32) (hy : y ≠ 0) :
    (BitVec.ofInt 32 (x.toInt.tmod y.toInt)).toInt = x.toInt.tmod y.toInt := by
  have hpos : 0 < y.toInt.natAbs := by
    rw [Int.natAbs_pos]
    exact fun h => hy (BitVec.eq_of_toInt_eq (by simpa using h))
  have hlt := Nat.mod_lt x.toInt.natAbs hpos
  have habs := Int.natAbs_tmod x.toInt y.toInt
  have hyl := BitVec.le_toInt y
  have hyu := BitVec.toInt_lt (x := y)
  exact BitVec.toInt_ofInt_eq_self (by decide) (by omega) (by omega)

/-- The quotient and the remainder determine the rest. -/
theorem SignedDivision.of_quotient {x y lo hi : U32} (hy : y ≠ 0)
    (hlo : lo = BitVec.ofInt 32 (x.toInt.tdiv y.toInt))
    (hhi : hi = BitVec.ofInt 32 (x.toInt.tmod y.toInt)) : SignedDivision x y lo hi := by
  have hvalue : hi.toInt = x.toInt.tmod y.toInt := by rw [hhi, toInt_ofInt_tmod x y hy]
  have hy' : y.toInt ≠ 0 := fun h => hy (BitVec.eq_of_toInt_eq (by simpa using h))
  refine ⟨hlo, hhi, ?_, ?_, ?_⟩
  · calc x = BitVec.ofInt 32 x.toInt := BitVec.ofInt_toInt.symm
      _ = BitVec.ofInt 32 (x.toInt.tdiv y.toInt * y.toInt + x.toInt.tmod y.toInt) := by
          rw [Int.tdiv_mul_add_tmod]
      _ = lo * y + hi := by
          rw [BitVec.ofInt_add, BitVec.ofInt_mul, BitVec.ofInt_toInt, hlo, hhi]
  · rw [hvalue, Int.natAbs_tmod]
    exact Nat.mod_lt _ (Int.natAbs_pos.2 hy')
  · by_cases hzero : x.toInt.tmod y.toInt = 0
    · exact .inl (by rw [hhi, hzero]; rfl)
    · -- A remainder that is not zero has the sign of the dividend.
      right
      rw [hvalue]
      rcases Int.le_total 0 x.toInt with hx | hx
      · have := Int.tmod_nonneg y.toInt hx
        omega
      · have := Int.tmod_nonneg y.toInt (Int.neg_nonneg_of_nonpos hx)
        rw [Int.neg_tmod] at this
        have : x.toInt ≠ 0 := fun h => hzero (by rw [h, Int.zero_tmod])
        omega

/-- The operands on which dividing the `u32` values is dividing the signed ones,
or that the arm for the overflowing pair covers. -/
def DividesSigned (x y : U32) : Prop :=
  (0 ≤ x.toInt ∧ 0 < y.toInt) ∨ (0 ≤ x.toInt ∧ y.toInt < 0 ∧ x.toInt < -y.toInt) ∨
    y = 1 ∨ x = y ∨ (x = 0x80000000 ∧ y = -1)

instance (x y : U32) : Decidable (DividesSigned x y) := inferInstanceAs (Decidable (_ ∨ _))

/-- The unsigned quotient and remainder are the signed ones. -/
def UnsignedIsSigned (x y : U32) : Prop :=
  x / y = BitVec.ofInt 32 (x.toInt.tdiv y.toInt) ∧
    x % y = BitVec.ofInt 32 (x.toInt.tmod y.toInt)

/-- Both operands are their own values. -/
theorem unsignedIsSigned_of_nonneg {x y : U32} (hx : x.toInt = x.toNat) (hy : y.toInt = y.toNat) :
    UnsignedIsSigned x y := by
  have hq := Nat.div_le_self x.toNat y.toNat
  have hr := Nat.mod_le x.toNat y.toNat
  have hlt := x.isLt
  rw [UnsignedIsSigned, eq_ofInt_iff, eq_ofInt_iff, hx, hy, ← Int.ofNat_tdiv, ← Int.ofNat_tmod,
    toNat_ofInt_natCast (by omega), toNat_ofInt_natCast (by omega)]
  exact ⟨BitVec.toNat_udiv, BitVec.toNat_umod⟩

/-- A negative divisor is large as an unsigned number, so the quotient is zero.
The signed one is zero when the divisor is the larger in magnitude. -/
theorem unsignedIsSigned_neg_divisor {x y : U32} (m : Nat) (hx : x.toInt = x.toNat)
    (hxy : x.toNat < y.toNat) (hm : 0 < m) (hy : y.toInt = -(m : Int)) :
    UnsignedIsSigned x y ↔ x.toNat < m := by
  have hq := Nat.div_le_self x.toNat m
  have hr := Nat.mod_le x.toNat m
  have hlt := x.isLt
  rw [UnsignedIsSigned, eq_ofInt_iff, eq_ofInt_iff, hx, hy, Int.tdiv_neg, Int.tmod_neg,
    ← Int.ofNat_tdiv, ← Int.ofNat_tmod, toNat_ofInt_neg (by omega),
    toNat_ofInt_natCast (by omega), BitVec.toNat_udiv, BitVec.toNat_umod,
    Nat.div_eq_of_lt hxy, Nat.mod_eq_of_lt hxy]
  constructor
  · intro ⟨_, hmod⟩
    rw [hmod]
    exact Nat.mod_lt _ hm
  · intro hlt
    simp [Nat.div_eq_of_lt hlt, Nat.mod_eq_of_lt hlt]

/-- A negative dividend is read as `2 ^ 32` more than it is. Only the divisor
one hides that. -/
theorem unsignedIsSigned_neg_dividend {x y : U32} (a : Nat) (ha : a ≤ 2 ^ 31)
    (hsum : x.toNat + a = 2 ^ 32) (hx : x.toInt = -(a : Int)) (hy : y.toInt = y.toNat)
    (hpos : 0 < y.toNat) (hsmall : y.toNat < 2 ^ 31) :
    UnsignedIsSigned x y ↔ y.toNat = 1 := by
  have hq := Nat.div_le_self a y.toNat
  have hr := Nat.mod_lt a hpos
  have hr' := Nat.mod_lt x.toNat hpos
  rw [UnsignedIsSigned, eq_ofInt_iff, eq_ofInt_iff, hx, hy, Int.neg_tdiv, Int.neg_tmod,
    ← Int.ofNat_tdiv, ← Int.ofNat_tmod, toNat_ofInt_neg (by omega), toNat_ofInt_neg (by omega),
    BitVec.toNat_udiv, BitVec.toNat_umod]
  constructor
  · intro ⟨hdiv, hmod⟩
    -- The divisor divides both magnitudes, and the quotients add up to nothing or `2 ^ 32`.
    have hmods : a % y.toNat = 0 ∧ x.toNat % y.toNat = 0 := by
      split at hmod <;> omega
    have hx := Nat.div_add_mod x.toNat y.toNat
    have ha := Nat.div_add_mod a y.toNat
    have hsum : y.toNat * (x.toNat / y.toNat + a / y.toNat) = 2 ^ 32 := by
      rw [Nat.mul_add]
      omega
    have hquot : x.toNat / y.toNat + a / y.toNat = 2 ^ 32 := by
      split at hdiv
      · have : x.toNat / y.toNat + a / y.toNat = 0 := by omega
        rw [this] at hsum
        omega
      · omega
    rw [hquot] at hsum
    omega
  · intro hone
    rw [hone]
    simp only [Nat.div_one, Nat.mod_one, if_true, and_true]
    split <;> omega

/-- Two negative operands: the unsigned quotient is `0` or `1`, and the signed
one agrees only when the operands are equal. -/
theorem unsignedIsSigned_neg_neg {x y : U32} (a m : Nat) (ha : 0 < a) (hm : 0 < m)
    (hal : a ≤ 2 ^ 31) (hml : m ≤ 2 ^ 31) (hxa : x.toNat + a = 2 ^ 32)
    (hym : y.toNat + m = 2 ^ 32) (hx : x.toInt = -(a : Int)) (hy : y.toInt = -(m : Int)) :
    UnsignedIsSigned x y ↔ a = m := by
  have hq := Nat.div_le_self a m
  have hr := Nat.mod_lt a hm
  rw [UnsignedIsSigned, eq_ofInt_iff, eq_ofInt_iff, hx, hy, Int.neg_tdiv_neg, Int.neg_tmod,
    Int.tmod_neg, ← Int.ofNat_tdiv, ← Int.ofNat_tmod, toNat_ofInt_natCast (by omega),
    toNat_ofInt_neg (by omega), BitVec.toNat_udiv, BitVec.toNat_umod]
  constructor
  · intro ⟨hdiv, _⟩
    by_contra hne
    rcases Nat.lt_or_gt_of_ne hne with hlt | hgt
    · -- A smaller magnitude is a larger unsigned value.
      have hone : x.toNat / y.toNat = 1 := Nat.div_eq_of_lt_le (by omega) (by omega)
      rw [hone, Nat.div_eq_of_lt hlt] at hdiv
      omega
    · have hone : 1 ≤ a / m := (Nat.le_div_iff_mul_le hm).2 (by omega)
      rw [Nat.div_eq_of_lt (by omega)] at hdiv
      omega
  · intro heq
    have hxy : x.toNat = y.toNat := by omega
    rw [heq, hxy, Nat.div_self (by omega), Nat.div_self hm, Nat.mod_self, Nat.mod_self]
    exact ⟨rfl, rfl⟩

/-- The sign regions, put together. The pair with its own arm is left out. -/
theorem unsignedIsSigned_iff (x y : U32) (hy : y ≠ 0) (hpair : ¬(x = 0x80000000 ∧ y = -1)) :
    UnsignedIsSigned x y ↔ DividesSigned x y := by
  have hpos : 0 < y.toNat := Nat.pos_of_ne_zero fun h => hy (BitVec.eq_of_toNat_eq h)
  have hone : y = 1 ↔ y.toNat = 1 := BitVec.toNat_inj.symm
  have hsame : x = y ↔ x.toNat = y.toNat := BitVec.toNat_inj.symm
  simp only [DividesSigned, hpair, or_false, hone, hsame]
  rcases toInt_eq x with ⟨hxl, hx⟩ | ⟨hxl, hxu, hx⟩ <;>
    rcases toInt_eq y with ⟨hyl, hy⟩ | ⟨hyl, hyu, hy⟩
  · -- No sign: always.
    simp only [unsignedIsSigned_of_nonneg hx hy, true_iff]
    omega
  · -- A negative divisor: when both quotients are zero.
    rw [unsignedIsSigned_neg_divisor _ hx (by omega) (by omega) hy]
    omega
  · -- A negative dividend: when the divisor is one.
    rw [unsignedIsSigned_neg_dividend _ (by omega) (by omega) hx hy hpos hyl]
    omega
  · -- Both: when they are equal.
    rw [unsignedIsSigned_neg_neg _ _ (by omega) (by omega) (by omega) (by omega) (by omega)
      (by omega) hx hy]
    omega

/-- `ITP_DIV_IMPL` leaves the signed quotient and remainder on these operands
only. -/
theorem itpDivImpl_signed_iff (x y : U32) (hy : y ≠ 0) :
    SignedDivision x y (itpDivImpl x y).1 (itpDivImpl x y).2 ↔ DividesSigned x y := by
  by_cases hpair : x = 0x80000000 ∧ y = -1
  · -- The pair with its own arm, whose quotient wraps to the dividend.
    obtain ⟨rfl, rfl⟩ := hpair
    have : SignedDivision 0x80000000 (-1) 0x80000000 0 :=
      .of_quotient (by decide) (by decide) (by decide)
    exact iff_of_true this (by decide)
  · -- The last arm, which divides the words as they are.
    have harm : itpDivImpl x y = (x / y, x % y) := by
      rw [itpDivImpl, if_neg hy, if_neg fun h => hpair h.symm]
    rw [harm, ← unsignedIsSigned_iff x y hy hpair]
    exact ⟨fun h => ⟨h.quotient, h.remainder⟩, fun h => .of_quotient hy h.1 h.2⟩

/-- What a division leaves in `LO` and `HI`. -/
theorem typeMultDiv_reg (cir : U32) (s : Machine) (impl : U32 → U32 → U32 × U32) :
    (typeMultDiv cir s impl).reg MIPS_R_LO = (impl (s.reg (rs cir)) (s.reg (rt cir))).1 ∧
      (typeMultDiv cir s impl).reg MIPS_R_HI = (impl (s.reg (rs cir)) (s.reg (rt cir))).2 :=
  ⟨rfl, rfl⟩

/-- `DIVU` divides the unsigned values. -/
def DivuExact (host : Host) (cir : U32) (s : Machine) : Prop :=
  ∃ t, execute host .divu cir s = .ok t ∧
    (t.reg MIPS_R_LO).toNat = (s.reg (rs cir)).toNat / (s.reg (rt cir)).toNat ∧
    (t.reg MIPS_R_HI).toNat = (s.reg (rs cir)).toNat % (s.reg (rt cir)).toNat

/-- `DIV` divides the signed values. -/
def DivExact (host : Host) (cir : U32) (s : Machine) : Prop :=
  ∃ t, execute host .div cir s = .ok t ∧
    SignedDivision (s.reg (rs cir)) (s.reg (rt cir)) (t.reg MIPS_R_LO) (t.reg MIPS_R_HI)

theorem divu_exact (host : Host) (cir : U32) (s : Machine) (h : s.reg (rt cir) ≠ 0) :
    DivuExact host cir s := by
  refine ⟨_, rfl, ?_⟩
  rw [(typeMultDiv_reg cir s itpDivuImpl).1, (typeMultDiv_reg cir s itpDivuImpl).2,
    itpDivuImpl, if_pos h]
  exact ⟨BitVec.toNat_udiv, BitVec.toNat_umod⟩

theorem div_exact_iff (host : Host) (cir : U32) (s : Machine) (h : s.reg (rt cir) ≠ 0) :
    DivExact host cir s ↔ DividesSigned (s.reg (rs cir)) (s.reg (rt cir)) := by
  obtain ⟨hlo, hhi⟩ := typeMultDiv_reg cir s itpDivImpl
  rw [← itpDivImpl_signed_iff _ _ h, ← hlo, ← hhi]
  constructor
  · rintro ⟨t, ht, hdivides⟩
    cases ht
    exact hdivides
  · intro hdivides
    exact ⟨_, rfl, hdivides⟩

/-- For a divisor other than zero, `DIVU` is always exact, and the two
instructions are exact together on `DividesSigned` operands and no others. -/
theorem division_exact_iff (host : Host) (cir : U32) (s : Machine) (h : s.reg (rt cir) ≠ 0) :
    DivuExact host cir s ∧
      (DivuExact host cir s ∧ DivExact host cir s ↔
        DividesSigned (s.reg (rs cir)) (s.reg (rt cir))) :=
  ⟨divu_exact host cir s h, by
    rw [and_iff_right (divu_exact host cir s h), div_exact_iff host cir s h]⟩

/-- A machine with two registers set, to run one instruction on. -/
def operands (a b : U32) : Machine :=
  ((⟨Mips.zero, Memory.empty, []⟩ : Machine).setReg MIPS_R_T0 a).setReg MIPS_R_T1 b

theorem division_exact_iff_seven_two :
    DivuExact failingHost 0x0109001a (operands 7 2) ∧
      DivExact failingHost 0x0109001a (operands 7 2) :=
  (division_exact_iff failingHost 0x0109001a (operands 7 2) (by decide)).2.2 (by decide)

/-- `-7` by `2`: the quotient left in `LO` is `0x7ffffffc`, not `-3`. -/
theorem div_negative_unsigned :
    ¬ ∀ (host : Host) (cir : U32) (s : Machine), s.reg (rt cir) ≠ 0 →
      DivuExact host cir s ∧ DivExact host cir s := by
  intro h
  obtain ⟨_, t, ht, hdivides⟩ := h failingHost 0x0109001a (operands (-7) 2) (by decide)
  cases ht
  exact absurd hdivides.quotient (by decide)

/-! ### The trapping instructions -/

/-- The results a signed register can hold. -/
def InRange (z : Int) : Prop := -2 ^ 31 ≤ z ∧ z < 2 ^ 31

instance (z : Int) : Decidable (InRange z) := inferInstanceAs (Decidable (_ ∧ _))

/-- What a trapping instruction with this exact result is to do from `s`. The
sibling that wraps ends in `wrapping`. -/
structure TrapsExactly (s : Machine) (dest : Reg) (exact : Int)
    (trapping wrapping : Except Fault Machine) : Prop where
  writes : InRange exact → ∃ t, trapping = .ok t ∧ t.reg dest = BitVec.ofInt 32 exact
  keeps : ¬InRange exact → ∃ t, trapping = .ok t ∧ ∀ r : Reg, r.val < 32 → t.reg r = s.reg r
  agrees : InRange exact → trapping = wrapping

/-- An instruction that traps when `p` holds traps exactly on overflow when `p`
is overflow, or when the destination cannot tell. -/
theorem trapsExactly_iff {s : Machine} {dest : Reg} {exact : Int} {v : U32} {p : Prop} [Decidable p]
    (hdest : dest.val < 32) (hv : BitVec.ofInt 32 exact = v) :
    TrapsExactly s dest exact (.ok (if p then s else s.setReg dest v)) (.ok (s.setReg dest v)) ↔
      (p ↔ ¬InRange exact) ∨ s.reg dest = v := by
  have hset : (s.setReg dest v).reg dest = v := if_pos rfl
  constructor
  · intro h
    by_cases hp : p <;> by_cases hrange : InRange exact
    · -- Trapped in range.
      obtain ⟨t, ht, hwrites⟩ := h.writes hrange
      rw [if_pos hp] at ht
      cases ht
      exact .inr (hwrites.trans hv)
    · exact .inl (iff_of_true hp hrange)
    · exact .inl (iff_of_false hp fun h => h hrange)
    · -- Written out of range.
      obtain ⟨t, ht, hkeeps⟩ := h.keeps hrange
      rw [if_neg hp] at ht
      cases ht
      exact .inr ((hkeeps dest hdest).symm.trans hset)
  · rintro (hiff | hheld)
    · refine ⟨fun hrange => ?_, fun hrange => ?_, fun hrange => ?_⟩
      · rw [if_neg fun hp => hiff.1 hp hrange]
        exact ⟨_, rfl, hset.trans hv.symm⟩
      · rw [if_pos (hiff.2 hrange)]
        exact ⟨_, rfl, fun _ _ => rfl⟩
      · rw [if_neg fun hp => hiff.1 hp hrange]
    · -- Both arms leave the same machine.
      have hsame : s.setReg dest v = s := by rw [← hheld, Machine.setReg_reg]
      rw [hsame, ite_self]
      exact ⟨fun _ => ⟨_, rfl, hheld.trans hv.symm⟩, fun _ => ⟨_, rfl, fun _ _ => rfl⟩,
        fun _ => rfl⟩

/-- `ITP_ADD_IMPL` traps on a carry out of the unsigned sum. -/
theorem itpAddImpl_eq (x y : U32) :
    itpAddImpl x y = if 2 ^ 32 ≤ x.toNat + y.toNat then none else some (x + y) := by
  have hx := x.isLt
  have hy := y.isLt
  have hlow : (x.setWidth 64 + y.setWidth 64 : U64).setWidth 32 = x + y := by
    rw [BitVec.setWidth_add _ _ (by decide), BitVec.setWidth_setWidth_of_le _ (by decide),
      BitVec.setWidth_setWidth_of_le _ (by decide), BitVec.setWidth_eq, BitVec.setWidth_eq]
  have htrap : (x.setWidth 64 + y.setWidth 64 : U64) > 0xffffffff ↔
      2 ^ 32 ≤ x.toNat + y.toNat := by
    rw [gt_iff_lt, BitVec.lt_def, BitVec.toNat_add, BitVec.toNat_setWidth, BitVec.toNat_setWidth,
      show (0xffffffff : U64).toNat = 2 ^ 32 - 1 from rfl]
    omega
  simp only [itpAddImpl, hlow, htrap]

/-- `ITP_SUB_IMPL` traps when the unsigned difference is below the signed
minimum. -/
theorem itpSubImpl_eq (x y : U32) :
    itpSubImpl x y = if x.toNat + 2 ^ 31 < y.toNat then none else some (x - y) := by
  have hx := x.isLt
  have hy := y.isLt
  have hlow : (x.setWidth 64 - y.setWidth 64 : U64).setWidth 32 = x - y := by
    apply BitVec.eq_of_toNat_eq
    rw [BitVec.toNat_setWidth, BitVec.toNat_sub, BitVec.toNat_sub, BitVec.toNat_setWidth,
      BitVec.toNat_setWidth]
    omega
  have htrap : (x.setWidth 64 - y.setWidth 64 : U64).toInt < -2147483648 ↔
      x.toNat + 2 ^ 31 < y.toNat := by
    rw [BitVec.toInt_eq_toNat_cond, BitVec.toNat_sub, BitVec.toNat_setWidth, BitVec.toNat_setWidth]
    omega
  simp only [itpSubImpl, hlow, htrap]

/-- `ITP_ADDI_IMPL` traps when the unsigned register and the signed immediate
carry out. -/
theorem itpAddiImpl_eq (x : U32) (imm16 : U16) :
    itpAddiImpl x imm16 =
      if 2 ^ 32 ≤ (x.toNat : Int) + imm16.toInt then none else some (x + imm16.signExtend 32) := by
  have hx := x.isLt
  have hil := BitVec.le_toInt imm16
  have hiu := BitVec.toInt_lt (x := imm16)
  have hsum : (x.setWidth 64 + imm16.signExtend 64 : U64) =
      BitVec.ofInt 64 (x.toNat + imm16.toInt) := by
    rw [BitVec.ofInt_add, BitVec.ofInt_natCast, BitVec.ofNat_toNat]
    rfl
  have hlow : (BitVec.ofInt 64 (x.toNat + imm16.toInt)).setWidth 32 = x + imm16.signExtend 32 := by
    calc (BitVec.ofInt 64 (x.toNat + imm16.toInt)).setWidth 32
        = BitVec.ofInt 32 (x.toNat + imm16.toInt) := by
          apply BitVec.eq_of_toNat_eq
          rw [BitVec.toNat_setWidth, BitVec.toNat_ofInt, BitVec.toNat_ofInt]
          omega
      _ = x + imm16.signExtend 32 := by
          rw [BitVec.ofInt_add, BitVec.ofInt_natCast, BitVec.ofNat_toNat, BitVec.setWidth_eq]
          rfl
  have hvalue : (BitVec.ofInt 64 (x.toNat + imm16.toInt)).toInt = x.toNat + imm16.toInt :=
    BitVec.toInt_ofInt_eq_self (by decide) (by omega) (by omega)
  have htrap : (x.toNat + imm16.toInt : Int) > 0xffffffff ↔
      2 ^ 32 ≤ (x.toNat : Int) + imm16.toInt := by omega
  simp only [itpAddiImpl, hsum, hlow, hvalue, htrap]

/-- The signed operands on which `ADD` traps exactly when the sum overflows. It
never traps on two non-negative ones, always on two negative ones, and on mixed
signs when the sum, which always fits, is not negative. -/
def AddTraps (x y : Int) : Prop :=
  (0 ≤ x ∧ 0 ≤ y ∧ x + y < 2 ^ 31) ∨ (x < 0 ∧ y < 0 ∧ x + y < -2 ^ 31) ∨
    ((0 ≤ x ∧ y < 0 ∨ x < 0 ∧ 0 ≤ y) ∧ x + y < 0)

/-- The same for `ADDI`. It never traps on overflow, and traps when a negative
register and a non-negative immediate add up to no less than zero. -/
def AddiTraps (x b : Int) : Prop :=
  InRange (x + b) ∧ ¬(x < 0 ∧ 0 ≤ b ∧ 0 ≤ x + b)

/-- The same for `SUB`. It is never exact when a negative operand is taken from a
non-negative one. -/
def SubTraps (x y : Int) : Prop :=
  (0 ≤ x ∧ 0 ≤ y) ∨ (x < 0 ∧ y < 0) ∨ (x < 0 ∧ 0 ≤ y ∧ -2 ^ 31 ≤ x - y)

/-- The trap of `ADD` in terms of the signed operands. -/
theorem add_trap_iff (x y : U32) :
    (2 ^ 32 ≤ x.toNat + y.toNat ↔ ¬InRange (x.toInt + y.toInt)) ↔ AddTraps x.toInt y.toInt := by
  unfold InRange AddTraps
  rcases toInt_eq x with hx | hx <;> rcases toInt_eq y with hy | hy <;> omega

/-- The trap of `ADDI` in terms of the signed operands. -/
theorem addi_trap_iff (x : U32) (imm16 : U16) :
    (2 ^ 32 ≤ (x.toNat : Int) + imm16.toInt ↔ ¬InRange (x.toInt + imm16.toInt)) ↔
      AddiTraps x.toInt imm16.toInt := by
  have hil := BitVec.le_toInt imm16
  have hiu := BitVec.toInt_lt (x := imm16)
  unfold AddiTraps InRange
  rcases toInt_eq x with hx | hx <;> omega

/-- The trap of `SUB` in terms of the signed operands. -/
theorem sub_trap_iff (x y : U32) :
    (x.toNat + 2 ^ 31 < y.toNat ↔ ¬InRange (x.toInt - y.toInt)) ↔ SubTraps x.toInt y.toInt := by
  unfold InRange SubTraps
  rcases toInt_eq x with hx | hx <;> rcases toInt_eq y with hy | hy <;> omega

/-- The register form, for an implementation that traps when `p` holds. -/
theorem typeAluReg_eq {cir : U32} {s : Machine} {impl : U32 → U32 → Option U32} {p : Prop}
    [Decidable p] {v : U32}
    (h : impl (s.reg (rs cir)) (s.reg (rt cir)) = if p then none else some v) :
    typeAluReg cir s impl = if p then s else s.setReg (rd cir) v := by
  rw [typeAluReg, h]
  by_cases hp : p
  · rw [if_pos hp, if_pos hp]
  · rw [if_neg hp, if_neg hp]

/-- The immediate form. -/
theorem typeAluImm_eq {cir : U32} {s : Machine} {impl : U32 → U16 → Option U32} {p : Prop}
    [Decidable p] {v : U32}
    (h : impl (s.reg (rs cir)) (imm16Field cir) = if p then none else some v) :
    typeAluImm cir s impl = if p then s else s.setReg (rt cir) v := by
  rw [typeAluImm, h]
  by_cases hp : p
  · rw [if_pos hp, if_pos hp]
  · rw [if_neg hp, if_neg hp]

/-- `ADD` from a state meets its specification. -/
def AddExact (host : Host) (cir : U32) (s : Machine) : Prop :=
  TrapsExactly s (rd cir) ((s.reg (rs cir)).toInt + (s.reg (rt cir)).toInt)
    (execute host .add cir s) (execute host .addu cir s)

/-- `ADDI` from a state meets its specification. -/
def AddiExact (host : Host) (cir : U32) (s : Machine) : Prop :=
  TrapsExactly s (rt cir) ((s.reg (rs cir)).toInt + (imm16Field cir).toInt)
    (execute host .addi cir s) (execute host .addiu cir s)

/-- `SUB` from a state meets its specification. -/
def SubExact (host : Host) (cir : U32) (s : Machine) : Prop :=
  TrapsExactly s (rd cir) ((s.reg (rs cir)).toInt - (s.reg (rt cir)).toInt)
    (execute host .sub cir s) (execute host .subu cir s)

/-- A register that a field of an instruction names is a general one. -/
theorem rd_general (cir : U32) : (rd cir).val < 32 := toNat_and_mask_lt _ _ 5 rfl

theorem rt_general (cir : U32) : (rt cir).val < 32 := toNat_and_mask_lt _ _ 5 rfl

/-- Each of the three is exact in its sign regions, and where the destination
already holds what a wrapping sum or difference would put there. -/
theorem trapping_exact_iff (host : Host) (cir : U32) (s : Machine) :
    (AddExact host cir s ↔ AddTraps (s.reg (rs cir)).toInt (s.reg (rt cir)).toInt ∨
      s.reg (rd cir) = s.reg (rs cir) + s.reg (rt cir)) ∧
    (AddiExact host cir s ↔ AddiTraps (s.reg (rs cir)).toInt (imm16Field cir).toInt ∨
      s.reg (rt cir) = s.reg (rs cir) + (imm16Field cir).signExtend 32) ∧
    (SubExact host cir s ↔ SubTraps (s.reg (rs cir)).toInt (s.reg (rt cir)).toInt ∨
      s.reg (rd cir) = s.reg (rs cir) - s.reg (rt cir)) := by
  refine ⟨?_, ?_, ?_⟩
  · have hadd : execute host .add cir s = .ok _ :=
      congrArg Except.ok (typeAluReg_eq (itpAddImpl_eq _ _))
    rw [← add_trap_iff, AddExact, hadd]
    exact trapsExactly_iff (rd_general cir) (by
      rw [BitVec.ofInt_add, BitVec.ofInt_toInt, BitVec.ofInt_toInt])
  · have haddi : execute host .addi cir s = .ok _ :=
      congrArg Except.ok (typeAluImm_eq (itpAddiImpl_eq _ _))
    rw [← addi_trap_iff, AddiExact, haddi]
    exact trapsExactly_iff (rt_general cir) (by rw [BitVec.ofInt_add, BitVec.ofInt_toInt]; rfl)
  · have hsub : execute host .sub cir s = .ok _ :=
      congrArg Except.ok (typeAluReg_eq (itpSubImpl_eq _ _))
    rw [← sub_trap_iff, SubExact, hsub]
    exact trapsExactly_iff (rd_general cir) (by
      rw [Int.sub_eq_add_neg, BitVec.ofInt_add, BitVec.ofInt_neg, BitVec.ofInt_toInt,
        BitVec.ofInt_toInt, ← BitVec.sub_eq_add_neg])

/-- `1 + -1` fits, and `ADD` traps on its carry: the destination keeps `1`. -/
theorem add_traps_in_range :
    ¬ ∀ (host : Host) (cir : U32) (s : Machine),
      AddExact host cir s ∧ AddiExact host cir s ∧ SubExact host cir s := by
  intro h
  obtain ⟨hadd, -, -⟩ := h failingHost 0x01094020 (operands 1 (-1))
  obtain ⟨t, ht, hwrites⟩ := hadd.writes (by decide)
  cases ht
  exact absurd hwrites (by decide)

end MipsEngines
