import Mathlib.Data.Nat.Bitwise

/-!
# `MipsEngines.Lib.BitField`: fields of a word, by shift and mask

`put k m v` places `v` in the field at bit `k` with mask `m`, and `get k m` takes the field
out of a word. A word put together from several fields gives each of them back (`get_or`,
`get_put`), as long as none reaches into another one (`get_put_of_disjoint`). The side
conditions are about masks only, so for fixed fields they are decided. The module names no
program.
-/

set_option autoImplicit false

namespace MipsEngines.Lib.BitField

variable {w : Nat}

/-- The field of `word` at bit `k` with mask `m`. -/
def get (k : Nat) (m word : BitVec w) : BitVec w := (word >>> k) &&& m

/-- `v` placed in the field at bit `k` with mask `m`. -/
def put (k : Nat) (m v : BitVec w) : BitVec w := (v &&& m) <<< k

/-- A field of two words joined. -/
theorem get_or (k : Nat) (m x y : BitVec w) : get k m (x ||| y) = get k m x ||| get k m y := by
  ext i hi
  simp [get, Bool.and_or_distrib_right]

/-- A field that fits in the word gives back what was placed in it. -/
theorem get_put {k : Nat} {m : BitVec w} (hfits : (m <<< k) >>> k = m) (v : BitVec w) :
    get k m (put k m v) = v &&& m := by
  ext i hi
  have hbit : ((m <<< k) >>> k)[i] = m[i] := by rw [hfits]
  simp [get, put] at hbit ⊢
  grind

/-- A field placed outside another one is not seen there. -/
theorem get_put_of_disjoint {k k' : Nat} {m m' : BitVec w}
    (hdisjoint : (m' <<< k') &&& (m <<< k) = 0) (v : BitVec w) : get k m (put k' m' v) = 0#w := by
  ext i hi
  have hbit : ((m' <<< k') &&& (m <<< k)).getLsbD (k + i) = false := by rw [hdisjoint]; simp
  simp [get, put] at hbit ⊢
  grind

/-- What fits in the field passes its mask. -/
theorem and_eq_self {k : Nat} {m v : BitVec w} (hm : m.toNat = 2 ^ k - 1) (hv : v.toNat < 2 ^ k) :
    v &&& m = v := by
  apply BitVec.eq_of_toNat_eq
  rw [BitVec.toNat_and, hm, Nat.and_two_pow_sub_one_eq_mod, Nat.mod_eq_of_lt hv]

/-- A number that fits in the field. -/
theorem ofNat_and {k n : Nat} {m : BitVec w} (hm : m.toNat = 2 ^ k - 1) (hn : n < 2 ^ k) :
    BitVec.ofNat w n &&& m = BitVec.ofNat w n := by
  refine and_eq_self hm ?_
  rw [BitVec.toNat_ofNat]
  exact Nat.lt_of_le_of_lt (Nat.mod_le _ _) hn

/-- A narrower word that fills the field. -/
theorem setWidth_and {n : Nat} {m : BitVec w} (hm : m.toNat = 2 ^ n - 1) (v : BitVec n) :
    v.setWidth w &&& m = v.setWidth w := by
  refine and_eq_self hm ?_
  rw [BitVec.toNat_setWidth]
  exact Nat.lt_of_le_of_lt (Nat.mod_le _ _) v.isLt

end MipsEngines.Lib.BitField
