import MipsEngines.Model.Engines
import MipsEngines.Proofs.Decode
import MipsEngines.Proofs.WordAccess

/-!
# `MipsEngines.Proofs.Unaligned`: the unaligned loads and stores

A pair of instructions moves a word at any address `a`: the right one at `a` and the left
one at `a + 3`. `LWR` and `LWL` each read an aligned word and replace some bytes of `rt`.
`Merged` says which, one bit at a time, so that the two masks need not be compared: together
the two loads take every byte from memory (`unaligned_load_pair`).

`SWR` and `SWL` store a whole word each. `unaligned_store_pair_iff` says when that does not
show.
-/

set_option autoImplicit false

namespace MipsEngines

open Lib

/-- Two instruction words of a pair: the same registers, the left one three bytes on. -/
structure UnalignedPair (cirR cirL : U32) : Prop where
  base : rs cirL = rs cirR
  target : rt cirL = rt cirR
  offset : (imm16Field cirL).toInt = (imm16Field cirR).toInt + 3

/-- The address of the left instruction. The offset does not wrap, so the address does only
at the end of memory. -/
theorem UnalignedPair.computeAddress {cirR cirL : U32} (h : UnalignedPair cirR cirL)
    (s : Machine) : computeAddress cirL s = computeAddress cirR s + 3 := by
  have himm : (imm16Field cirL).signExtend 32 = (imm16Field cirR).signExtend 32 + 3 := by
    calc (imm16Field cirL).signExtend 32
        = BitVec.ofInt 32 ((imm16Field cirR).toInt + 3) := by rw [← h.offset]; rfl
      _ = (imm16Field cirR).signExtend 32 + 3 := by rw [BitVec.ofInt_add]; rfl
  unfold MipsEngines.computeAddress
  rw [himm, h.base, BitVec.add_assoc, BitVec.add_comm 3, ← BitVec.add_assoc]

/-! ### Words by their bits -/

/-- Bit `i` of a word is bit `i % 8` of its byte `i / 8`. -/
theorem getLsbD_flatWord (memory : Memory) (a : U32) {i : Nat} (hi : i < 32) :
    (flatWord memory a).getLsbD i =
      (flatByte memory (a + BitVec.ofNat 32 (i / 8))).getLsbD (i % 8) := by
  simp only [flatWord, BitVec.getLsbD_append]
  have hbyte : i / 8 = 0 ∨ i / 8 = 1 ∨ i / 8 = 2 ∨ i / 8 = 3 := by omega
  -- One case a byte; the bit is found in the append of that byte.
  rcases hbyte with h | h | h | h
  · rw [if_pos (by omega), h, show i % 8 = i by omega]
    exact congrArg (fun x => (flatByte memory x).getLsbD i) (BitVec.add_zero a).symm
  · rw [if_neg (by omega), if_pos (by omega), h, show i % 8 = i - 8 by omega]
    rfl
  · rw [if_neg (by omega), if_neg (by omega), if_pos (by omega), h,
      show i % 8 = i - 8 - 8 by omega]
    rfl
  · rw [if_neg (by omega), if_neg (by omega), if_neg (by omega), h,
      show i % 8 = i - 8 - 8 - 8 by omega]
    rfl

/-- An aligned word whose page is mapped. -/
theorem memoryReadU32_alignDown {memory : Memory} {a : U32} (h : Mapped memory a) :
    memoryReadU32 memory (a &&& ~~~3) = .ok (flatWord memory (a &&& ~~~3)) := by
  have ha : (a &&& ~~~3).toNat = a.toNat / 4 * 4 := toNat_and_not_mask a 3 2 rfl
  have hbyte : MappedRange memory (a &&& ~~~3) 4 := by
    intro i hi
    apply h.congr
    unfold pageNumber
    rw [BitVec.toNat_add, BitVec.toNat_ofNat, ha]
    have := a.isLt
    omega
  exact memoryReadU32_flatWord hbyte (by unfold InPage; omega)

/-! ### The two loads -/

/-- `v` has the bytes of memory from `a` on where `p` holds, and those of `old` elsewhere. -/
def Merged (memory : Memory) (a : U32) (p : Nat → Prop) [DecidablePred p] (old v : U32) : Prop :=
  ∀ i < 32, v.getLsbD i =
    if p (i / 8) then (flatByte memory (a + BitVec.ofNat 32 (i / 8))).getLsbD (i % 8)
    else old.getLsbD i

/-- Two merges that leave no byte to the old word. -/
theorem Merged.trans {memory : Memory} {a old v w : U32} {p q : Nat → Prop} [DecidablePred p]
    [DecidablePred q] (hv : Merged memory a p old v) (hw : Merged memory a q v w)
    (hcover : ∀ j < 4, p j ∨ q j) : w = flatWord memory a := by
  apply BitVec.eq_of_getLsbD_eq
  intro i hi
  rw [getLsbD_flatWord memory a hi, hw i hi]
  split
  · rfl
  · rename_i hq
    rw [hv i hi, if_pos ((hcover (i / 8) (by omega)).resolve_right hq)]

/-- `(address & 3) << 3`, the distance in bits from the start of the aligned word. -/
theorem toNat_shift (a : U32) : ((a &&& 3) <<< 3).toNat = 8 * (a.toNat % 4) := by
  rw [BitVec.toNat_shiftLeft, toNat_and_mask a 3 2 rfl, Nat.shiftLeft_eq]
  omega

/-- The mask and the shift of `LWR`. -/
theorem getLsbD_mergeRight (old read : U32) (shift : Nat) {i : Nat} (hi : i < 32) :
    ((old &&& ~~~((0xffffffff : U32) >>> shift)) ||| (read >>> shift)).getLsbD i =
      if shift + i < 32 then read.getLsbD (shift + i) else old.getLsbD i := by
  have hmask : ((0xffffffff : U32) >>> shift).getLsbD i = decide (shift + i < 32) := by
    rw [BitVec.getLsbD_ushiftRight, show (0xffffffff : U32) = BitVec.allOnes 32 from rfl,
      BitVec.getLsbD_allOnes]
  rw [BitVec.getLsbD_or, BitVec.getLsbD_and, BitVec.getLsbD_not, hmask, BitVec.getLsbD_ushiftRight]
  by_cases hin : shift + i < 32
  · simp [hin]
  · simp [hi, hin, BitVec.getLsbD_of_ge read (shift + i) (Nat.not_lt.mp hin)]

/-- The mask and the shift of `LWL`. -/
theorem getLsbD_mergeLeft (old read : U32) (shift : Nat) {i : Nat} (hi : i < 32) :
    ((old &&& ~~~((0xffffffff : U32) <<< shift)) ||| (read <<< shift)).getLsbD i =
      if shift ≤ i then read.getLsbD (i - shift) else old.getLsbD i := by
  have hmask : ((0xffffffff : U32) <<< shift).getLsbD i = decide (shift ≤ i) := by
    rw [BitVec.getLsbD_shiftLeft, show (0xffffffff : U32) = BitVec.allOnes 32 from rfl,
      BitVec.getLsbD_allOnes]
    by_cases hin : shift ≤ i
    · simp [hi, hin, Nat.lt_of_le_of_lt (Nat.sub_le i shift) hi]
    · simp [hin, Nat.not_le.mp hin]
  rw [BitVec.getLsbD_or, BitVec.getLsbD_and, BitVec.getLsbD_not, hmask, BitVec.getLsbD_shiftLeft]
  by_cases hin : shift ≤ i
  · simp [hi, hin]
  · simp [hi, hin, Nat.not_le.mp hin]

/-- `LWR` takes the bytes from its address to the end of the aligned word. -/
theorem itpLwrImpl_merged {memory : Memory} {a : U32} (old : U32) (h : Mapped memory a) :
    ∃ v, itpLwrImpl memory a old = .ok v ∧
      Merged memory a (fun j => a.toNat % 4 + j < 4) old v := by
  have halign : (a &&& ~~~3).toNat = a.toNat / 4 * 4 := toNat_and_not_mask a 3 2 rfl
  refine ⟨_, by rw [itpLwrImpl, memoryReadU32_alignDown h]; rfl, ?_⟩
  intro i hi
  rw [getLsbD_mergeRight _ _ _ hi, toNat_shift]
  by_cases hin : 8 * (a.toNat % 4) + i < 32
  · have haddress : (a &&& ~~~3) + BitVec.ofNat 32 ((8 * (a.toNat % 4) + i) / 8) =
        a + BitVec.ofNat 32 (i / 8) := by
      apply BitVec.eq_of_toNat_eq
      rw [BitVec.toNat_add, BitVec.toNat_add, BitVec.toNat_ofNat, BitVec.toNat_ofNat, halign]
      omega
    rw [if_pos hin, if_pos (by omega), getLsbD_flatWord _ _ hin, haddress, Nat.mul_add_mod]
  · rw [if_neg hin, if_neg (by omega)]

/-- `LWL` takes the bytes from the start of the aligned word to its address, which is three
past the word that the pair loads. -/
theorem itpLwlImpl_merged {memory : Memory} {a : U32} (old : U32) (h : Mapped memory (a + 3)) :
    ∃ v, itpLwlImpl memory (a + 3) old = .ok v ∧
      Merged memory a (fun j => 3 ≤ (a + 3).toNat % 4 + j) old v := by
  have halign : ((a + 3) &&& ~~~3).toNat = (a + 3).toNat / 4 * 4 :=
    toNat_and_not_mask (a + 3) 3 2 rfl
  refine ⟨_, by rw [itpLwlImpl, memoryReadU32_alignDown h]; rfl, ?_⟩
  intro i hi
  rw [getLsbD_mergeLeft _ _ _ hi, toNat_shift]
  by_cases hin : 24 - 8 * ((a + 3).toNat % 4) ≤ i
  · have haddress : ((a + 3) &&& ~~~3) +
        BitVec.ofNat 32 ((i - (24 - 8 * ((a + 3).toNat % 4))) / 8) =
        a + BitVec.ofNat 32 (i / 8) := by
      have ha := a.isLt
      have ha3 : (a + 3).toNat = (a.toNat + 3) % 2 ^ 32 := BitVec.toNat_add a 3
      apply BitVec.eq_of_toNat_eq
      rw [BitVec.toNat_add ((a + 3) &&& ~~~3), BitVec.toNat_add a (BitVec.ofNat 32 (i / 8)),
        BitVec.toNat_ofNat, BitVec.toNat_ofNat, halign]
      omega
    rw [if_pos hin, if_pos (by omega), getLsbD_flatWord _ _ (by omega), haddress,
      show (i - (24 - 8 * ((a + 3).toNat % 4))) % 8 = i % 8 by omega]
  · rw [if_neg hin, if_neg (by omega)]

/-- A load whose implementation succeeds. -/
theorem typeLoadImm_eq {cir : U32} {s : Machine} {impl : Memory → U32 → U32 → Except Fault U32}
    {v : U32} (h : impl s.memory (computeAddress cir s) (s.reg (rt cir)) = .ok v) :
    typeLoadImm cir s impl = .ok (s.setReg (rt cir) v) := by
  rw [typeLoadImm, h]
  rfl

/-- A register set twice. -/
theorem setReg_setReg (s : Machine) (r : Reg) (v w : U32) :
    (s.setReg r v).setReg r w = s.setReg r w := by
  have hset : (s.mips.set r v).set r w = s.mips.set r w := by
    unfold Mips.set
    congr 1
    funext j
    by_cases hj : j = r
    · rw [if_pos hj, if_pos hj]
    · rw [if_neg hj, if_neg hj]
      exact if_neg hj
  unfold Machine.setReg
  rw [← hset]

/-- A store to another register leaves the address. -/
theorem computeAddress_setReg (cir : U32) (s : Machine) {r : Reg} (v : U32) (h : rs cir ≠ r) :
    computeAddress cir (s.setReg r v) = computeAddress cir s := by
  unfold computeAddress
  rw [Machine.reg_setReg, if_neg h]

/-- Two loads of a pair: the merges are taken one after the other. -/
theorem loads_pair {i₁ i₂ : Instr} {cir₁ cir₂ : U32} {impl₁ impl₂ : Memory → U32 → U32 → Except Fault U32}
    (host : Host) {s : Machine} {v w : U32} (h₁ : i₁.template = .loadImm impl₁)
    (h₂ : i₂.template = .loadImm impl₂) (hbase : rs cir₂ ≠ rt cir₂) (htarget : rt cir₂ = rt cir₁)
    (hv : impl₁ s.memory (computeAddress cir₁ s) (s.reg (rt cir₁)) = .ok v)
    (hw : impl₂ s.memory (computeAddress cir₂ s) v = .ok w) :
    runCode host [(cir₁, i₁), (cir₂, i₂)] s = .ok (s.setReg (rt cir₁) w) := by
  have hfirst : execute host i₁ cir₁ s = .ok (s.setReg (rt cir₁) v) := by
    rw [execute, h₁]
    exact typeLoadImm_eq hv
  have hsecond : execute host i₂ cir₂ (s.setReg (rt cir₁) v) = .ok (s.setReg (rt cir₁) w) := by
    rw [execute, h₂]
    show typeLoadImm _ _ _ = _
    rw [typeLoadImm_eq (v := w), htarget, setReg_setReg]
    rw [computeAddress_setReg _ _ _ (htarget ▸ hbase), htarget, Machine.reg_setReg, if_pos rfl]
    exact hw
  rw [runCode_cons, hfirst, ok_bind, runCode_cons, hsecond, ok_bind]
  rfl

/-- The load pair, in either order, leaves the word at its address in `rt` and changes
nothing else. -/
theorem loads_unaligned (host : Host) {cirR cirL : U32} {s : Machine}
    (pair : UnalignedPair cirR cirL) (hne : rs cirR ≠ rt cirR)
    (hmapped : MappedRange s.memory (computeAddress cirR s) 4) :
    runCode host [(cirR, .lwr), (cirL, .lwl)] s =
        .ok (s.setReg (rt cirR) (flatWord s.memory (computeAddress cirR s))) ∧
      runCode host [(cirL, .lwl), (cirR, .lwr)] s =
        .ok (s.setReg (rt cirR) (flatWord s.memory (computeAddress cirR s))) := by
  have hR : Mapped s.memory (computeAddress cirR s) := hmapped.head (by decide)
  have hL : Mapped s.memory (computeAddress cirR s + 3) := hmapped 3 (by decide)
  have hneL : rs cirL ≠ rt cirL := by rwa [pair.base, pair.target]
  have hnext : (computeAddress cirR s + 3).toNat = ((computeAddress cirR s).toNat + 3) % 2 ^ 32 :=
    BitVec.toNat_add _ 3
  constructor
  · obtain ⟨v, hv, hvm⟩ := itpLwrImpl_merged (s.reg (rt cirR)) hR
    obtain ⟨w, hw, hwm⟩ := itpLwlImpl_merged v hL
    rw [← hvm.trans hwm (by omega)]
    exact loads_pair host rfl rfl hneL pair.target hv (by rw [pair.computeAddress]; exact hw)
  · obtain ⟨v, hv, hvm⟩ := itpLwlImpl_merged (s.reg (rt cirL)) hL
    obtain ⟨w, hw, hwm⟩ := itpLwrImpl_merged v hR
    rw [← hvm.trans hwm (by omega), ← pair.target]
    exact loads_pair host rfl rfl hne pair.target.symm (by rw [pair.computeAddress]; exact hv) hw

/-- The unaligned load pair, in either order: `rt` gets the bytes at `a` to `a + 3`, the
least significant one first, and nothing else changes. -/
theorem unaligned_load_pair (host : Host) (cirR cirL : U32) (s : Machine)
    (pair : UnalignedPair cirR cirL) (hne : rs cirR ≠ rt cirR)
    (hmapped : MappedRange s.memory (computeAddress cirR s) 4) :
    ∃ b₀ b₁ b₂ b₃, memoryReadU8 s.memory (computeAddress cirR s) = .ok b₀ ∧
      memoryReadU8 s.memory (computeAddress cirR s + 1) = .ok b₁ ∧
      memoryReadU8 s.memory (computeAddress cirR s + 2) = .ok b₂ ∧
      memoryReadU8 s.memory (computeAddress cirR s + 3) = .ok b₃ ∧
      runCode host [(cirR, .lwr), (cirL, .lwl)] s =
        .ok (s.setReg (rt cirR) (b₃ ++ b₂ ++ b₁ ++ b₀)) ∧
      runCode host [(cirL, .lwl), (cirR, .lwr)] s =
        .ok (s.setReg (rt cirR) (b₃ ++ b₂ ++ b₁ ++ b₀)) := by
  have h₀ := flat_eq_flatByte (hmapped.head (by decide))
  have h₁ := flat_eq_flatByte (hmapped 1 (by decide))
  have h₂ := flat_eq_flatByte (hmapped 2 (by decide))
  have h₃ := flat_eq_flatByte (hmapped 3 (by decide))
  exact ⟨_, _, _, _, memoryReadU8_eq h₀, memoryReadU8_eq h₁, memoryReadU8_eq h₂,
    memoryReadU8_eq h₃, loads_unaligned host pair hne hmapped⟩

/-- `LWR` and `LWL` of `$t1` from `2($t0)`, across the two pages of `twoPages`. -/
theorem unaligned_load_pair_twoPages :
    ∃ t, runCode failingHost [(0x99090002, .lwr), (0x89090005, .lwl)]
      ((⟨Mips.zero, twoPages, []⟩ : Machine).setReg (gpr 8) 0x10ffc) = .ok t := by
  obtain ⟨_, _, _, _, -, -, -, -, hrun, -⟩ := unaligned_load_pair failingHost 0x99090002 0x89090005
    ((⟨Mips.zero, twoPages, []⟩ : Machine).setReg (gpr 8) 0x10ffc)
    ⟨rfl, rfl, by decide⟩ (by decide) mapped_twoPages
  exact ⟨_, hrun⟩

/-! ### The two stores -/

/-- The load pair gets `v` back from `a`. -/
def LoadsBack (host : Host) (t : Machine) (a v : U32) : Prop :=
  ∀ cirR cirL, UnalignedPair cirR cirL → rs cirR ≠ rt cirR → computeAddress cirR t = a →
    runCode host [(cirR, .lwr), (cirL, .lwl)] t = .ok (t.setReg (rt cirR) v) ∧
      runCode host [(cirL, .lwl), (cirR, .lwr)] t = .ok (t.setReg (rt cirR) v)

/-- `code` stores the bytes of `v` at `a` and no others, for the loads to read back. -/
def StoresWord (host : Host) (code : Code) (s : Machine) (a v : U32) : Prop :=
  ∃ t, runCode host code s = .ok t ∧ WritesBytes s.memory a 4 (byteOf v) (.ok t.memory) ∧
    LoadsBack host t a v

/-- The three bytes after the word at `a` are the upper bytes of `v`. -/
def FollowedBy (memory : Memory) (a v : U32) : Prop :=
  ∀ i < 3, memoryReadU8 memory (a + BitVec.ofNat 32 (4 + i)) = .ok (byteOf v (1 + i))

/-- A stored word is the one its bytes are read back as. -/
theorem flatWord_write {memory memory' : Memory} {a v : U32} (hmapped : MappedRange memory a 4)
    (h : flat memory' = (flat memory).write (rangeData a 4 (byteOf v))) :
    flatWord memory' a = v := by
  apply BitVec.eq_of_getLsbD_eq
  intro i hi
  have hdistance : (a + BitVec.ofNat 32 (i / 8) - a).toNat = i / 8 := toNat_add_sub a (by omega)
  obtain ⟨byte, hbyte⟩ := hmapped.byte (i / 8) (by omega)
  have hstored : flatByte memory' (a + BitVec.ofNat 32 (i / 8)) = byteOf v (i / 8) := by
    simp only [flatByte, h, Store.write, hbyte, rangeData, hdistance, if_pos (show i / 8 < 4 by omega),
      Option.map_some, Option.getD_some]
  rw [getLsbD_flatWord _ _ hi, hstored, byteOf, BitVec.getLsbD_extractLsb', Nat.div_add_mod]
  simp [Nat.mod_lt]

/-- What a store of either instruction does. -/
theorem execute_store (host : Host) {i : Instr} (h : i.template = .storeImm itpSwImpl) (cir : U32)
    (s : Machine) : execute host i cir s =
      (memoryStore s.memory (computeAddress cir s) 4 (byteOf (s.reg (rt cir)))).map s.setMemory := by
  rw [execute, h]
  show typeStoreImm cir s itpSwImpl = _
  unfold typeStoreImm itpSwImpl memoryWriteU32
  cases memoryStore s.memory (computeAddress cir s) 4 (byteOf (s.reg (rt cir))) <;> rfl

/-- A store inside a page. -/
theorem execute_store_ok (host : Host) {i : Instr} (h : i.template = .storeImm itpSwImpl) {cir : U32}
    {s : Machine} (hmapped : Mapped s.memory (computeAddress cir s))
    (hfit : InPage (computeAddress cir s) 4) :
    ∃ m, execute host i cir s = .ok (s.setMemory m) ∧ flat m = (flat s.memory).write
      (rangeData (computeAddress cir s) 4 (byteOf (s.reg (rt cir)))) := by
  obtain ⟨m, hstore, hflat⟩ := memoryStore_eq (byteOf (s.reg (rt cir))) hmapped hfit
  exact ⟨m, by rw [execute_store host h, hstore]; rfl, hflat⟩

/-- A store past the end of its page. -/
theorem execute_store_overrun (host : Host) {i : Instr} (h : i.template = .storeImm itpSwImpl)
    {cir : U32} {s : Machine} (hmapped : Mapped s.memory (computeAddress cir s))
    (hout : ¬InPage (computeAddress cir s) 4) : execute host i cir s = .error .overrun := by
  rw [execute_store host h, memoryStore_overrun _ hmapped hout]
  rfl

section TwoStores

variable {host : Host} {i₁ i₂ : Instr} {cir₁ cir₂ a : U32} {s : Machine}

/-- Two stores of one word, at two mapped addresses, each inside its page. -/
theorem runCode_stores (h₁ : i₁.template = .storeImm itpSwImpl)
    (h₂ : i₂.template = .storeImm itpSwImpl) (htarget : rt cir₂ = rt cir₁)
    (hm₁ : Mapped s.memory (computeAddress cir₁ s))
    (hm₂ : Mapped s.memory (computeAddress cir₂ s))
    (hfit₁ : InPage (computeAddress cir₁ s) 4) (hfit₂ : InPage (computeAddress cir₂ s) 4) :
    ∃ m, runCode host [(cir₁, i₁), (cir₂, i₂)] s = .ok (s.setMemory m) ∧
      flat m = ((flat s.memory).write
        (rangeData (computeAddress cir₁ s) 4 (byteOf (s.reg (rt cir₁))))).write
          (rangeData (computeAddress cir₂ s) 4 (byteOf (s.reg (rt cir₁)))) := by
  obtain ⟨m₁, hrun₁, hflat₁⟩ := execute_store_ok host h₁ hm₁ hfit₁
  have hm₂' : Mapped m₁ (computeAddress cir₂ s) := (Mapped.write hflat₁).2 hm₂
  obtain ⟨m₂, hrun₂, hflat₂⟩ := execute_store_ok host (s := s.setMemory m₁) h₂ hm₂' hfit₂
  refine ⟨m₂, ?_, ?_⟩
  · rw [runCode_cons, hrun₁, ok_bind, runCode_cons]
    rw [hrun₂]
    rfl
  · rw [← hflat₁, ← htarget]
    exact hflat₂

/-- When they get through, neither has passed the end of its page. -/
theorem inPage_of_runCode_stores (h₁ : i₁.template = .storeImm itpSwImpl)
    (h₂ : i₂.template = .storeImm itpSwImpl) (hm₁ : Mapped s.memory (computeAddress cir₁ s))
    (hm₂ : Mapped s.memory (computeAddress cir₂ s)) {t : Machine}
    (h : runCode host [(cir₁, i₁), (cir₂, i₂)] s = .ok t) :
    InPage (computeAddress cir₁ s) 4 ∧ InPage (computeAddress cir₂ s) 4 := by
  have hfit₁ : InPage (computeAddress cir₁ s) 4 := by
    by_contra hout
    rw [runCode_cons, execute_store_overrun host h₁ hm₁ hout] at h
    cases h
  obtain ⟨m₁, hrun₁, hflat₁⟩ := execute_store_ok host h₁ hm₁ hfit₁
  have hm₂' : Mapped m₁ (computeAddress cir₂ s) := (Mapped.write hflat₁).2 hm₂
  refine ⟨hfit₁, ?_⟩
  by_contra hout
  have hoverrun := execute_store_overrun host (s := s.setMemory m₁) h₂ hm₂' hout
  rw [runCode_cons, hrun₁, ok_bind, runCode_cons] at h
  rw [hoverrun] at h
  cases h

/-- The pair stores `v` at `a` when both stores lie in one page and the two writes show as the
one of `v`. -/
theorem storesWord_iff (h₁ : i₁.template = .storeImm itpSwImpl)
    (h₂ : i₂.template = .storeImm itpSwImpl) (htarget : rt cir₂ = rt cir₁)
    (hmapped : MappedRange s.memory a 4) (hm₁ : Mapped s.memory (computeAddress cir₁ s))
    (hm₂ : Mapped s.memory (computeAddress cir₂ s)) :
    StoresWord host [(cir₁, i₁), (cir₂, i₂)] s a (s.reg (rt cir₁)) ↔
      InPage (computeAddress cir₁ s) 4 ∧ InPage (computeAddress cir₂ s) 4 ∧
      ((flat s.memory).write (rangeData (computeAddress cir₁ s) 4 (byteOf (s.reg (rt cir₁))))).write
          (rangeData (computeAddress cir₂ s) 4 (byteOf (s.reg (rt cir₁)))) =
        (flat s.memory).write (rangeData a 4 (byteOf (s.reg (rt cir₁)))) := by
  constructor
  · rintro ⟨t, ht, hwrites, -⟩
    obtain ⟨hfit₁, hfit₂⟩ := inPage_of_runCode_stores h₁ h₂ hm₁ hm₂ ht
    obtain ⟨m, hrun, hflat⟩ := @runCode_stores host i₁ i₂ cir₁ cir₂ s h₁ h₂ htarget hm₁ hm₂ hfit₁ hfit₂
    cases hrun.symm.trans ht
    exact ⟨hfit₁, hfit₂, hflat ▸ (writesBytes_ok_iff hmapped).1 hwrites⟩
  · rintro ⟨hfit₁, hfit₂, heq⟩
    obtain ⟨m, hrun, hflat⟩ := @runCode_stores host i₁ i₂ cir₁ cir₂ s h₁ h₂ htarget hm₁ hm₂ hfit₁ hfit₂
    rw [← hflat] at heq
    refine ⟨_, hrun, (writesBytes_ok_iff hmapped).2 heq, fun cirR cirL pair hne haddress => ?_⟩
    -- The word is read back from the memory the stores left.
    have hback : MappedRange m a 4 := fun i hi => (Mapped.write heq).2 (hmapped i hi)
    have hloads := loads_unaligned host (s := s.setMemory m) pair hne (by rwa [haddress])
    rw [haddress] at hloads
    rwa [← flatWord_write hmapped heq]

end TwoStores

section Overlap

variable {memory : Memory} {a v : U32}

/-- The bytes after a word, by their distance. -/
theorem followedBy_iff (hmapped : MappedRange memory a 7) :
    FollowedBy memory a v ↔ ∀ x y, flat memory x = some y → 4 ≤ (x - a).toNat →
      (x - a).toNat < 7 → byteOf v ((x - a).toNat - 3) = y := by
  constructor
  · intro h x y hy hle hlt
    have hx := memoryReadU8_eq_ok.1 (h ((x - a).toNat - 4) (by omega))
    rw [Nat.add_sub_cancel' hle, add_sub_toNat, hy] at hx
    rw [Option.some.inj hx, show 1 + ((x - a).toNat - 4) = (x - a).toNat - 3 by omega]
  · intro h i hi
    obtain ⟨y, hy⟩ := hmapped.byte (4 + i) (by omega)
    have hbyte := h _ y hy
    rw [toNat_add_sub a (by omega)] at hbyte
    rw [memoryReadU8_eq_ok, hy, ← hbyte (by omega) (by omega),
      show 4 + i - 3 = 1 + i by omega]

/-- `SWL` over `SWR`: the byte at `a + 3` is the lowest of `v` in the end. -/
theorem write_right_left_iff (hmapped : MappedRange memory a 7) :
    ((flat memory).write (rangeData a 4 (byteOf v))).write
          (rangeData (a + BitVec.ofNat 32 3) 4 (byteOf v)) =
        (flat memory).write (rangeData a 4 (byteOf v)) ↔
      FollowedBy memory a v ∧ byteOf v 0 = byteOf v 3 := by
  rw [Store.write_write, Store.write_eq_write_iff, followedBy_iff hmapped]
  simp only [rangeData_add a (byteOf v) (show 3 + 4 ≤ 2 ^ 32 by decide)]
  unfold rangeData
  constructor
  · intro h
    constructor
    · intro x y hy hle hlt
      have hx := h x y hy
      rw [if_pos (by omega), if_neg (by omega)] at hx
      exact hx
    · obtain ⟨y, hy⟩ := hmapped.byte 3 (by decide)
      have hx := h _ y hy
      rw [toNat_add_sub a (by decide)] at hx
      exact hx
  · rintro ⟨hnext, hends⟩ x y hy
    by_cases hL : 3 ≤ (x - a).toNat ∧ (x - a).toNat < 3 + 4
    · rw [if_pos hL]
      by_cases hR : (x - a).toNat < 4
      · -- The one byte that both stores write.
        rw [if_pos hR, show (x - a).toNat = 3 by omega]
        exact hends
      · rw [if_neg hR]
        exact hnext x y hy (by omega) (by omega)
    · rw [if_neg hL, Option.none_or]

/-- `SWR` over `SWL`: the bytes at `a` to `a + 3` are those of `v` in the end. -/
theorem write_left_right_iff (hmapped : MappedRange memory a 7) :
    ((flat memory).write (rangeData (a + BitVec.ofNat 32 3) 4 (byteOf v))).write
          (rangeData a 4 (byteOf v)) =
        (flat memory).write (rangeData a 4 (byteOf v)) ↔ FollowedBy memory a v := by
  rw [Store.write_write, Store.write_eq_write_iff, followedBy_iff hmapped]
  simp only [rangeData_add a (byteOf v) (show 3 + 4 ≤ 2 ^ 32 by decide)]
  unfold rangeData
  constructor
  · intro h x y hy hle hlt
    have hx := h x y hy
    rw [if_neg (by omega), if_pos (by omega)] at hx
    exact hx
  · intro hnext x y hy
    by_cases hR : (x - a).toNat < 4
    · rw [if_pos hR]
      rfl
    · rw [if_neg hR, Option.none_or]
      by_cases hL : 3 ≤ (x - a).toNat ∧ (x - a).toNat < 3 + 4
      · rw [if_pos hL]
        exact hnext x y hy (by omega) (by omega)
      · rw [if_neg hL]

end Overlap

/-- The two stores of a pair. `SWR` first: each of its bytes but the last survives `SWL`, which
writes three bytes past the word. `SWL` first: `SWR` repairs the word but not what follows it.
So the pair works when it stays in its page and what follows holds the same bytes already. -/
theorem unaligned_store_pair_iff (host : Host) (cirR cirL : U32) (s : Machine)
    (pair : UnalignedPair cirR cirL) (hmapped : MappedRange s.memory (computeAddress cirR s) 4) :
    (StoresWord host [(cirR, .swr), (cirL, .swl)] s (computeAddress cirR s) (s.reg (rt cirR)) ↔
      InPage (computeAddress cirR s) 7 ∧
        FollowedBy s.memory (computeAddress cirR s) (s.reg (rt cirR)) ∧
        byteOf (s.reg (rt cirR)) 0 = byteOf (s.reg (rt cirR)) 3) ∧
    (StoresWord host [(cirL, .swl), (cirR, .swr)] s (computeAddress cirR s) (s.reg (rt cirR)) ↔
      InPage (computeAddress cirR s) 7 ∧
        FollowedBy s.memory (computeAddress cirR s) (s.reg (rt cirR))) := by
  have hR : Mapped s.memory (computeAddress cirR s) := hmapped.head (by decide)
  have hL : Mapped s.memory (computeAddress cirL s) := by
    rw [pair.computeAddress]
    exact hmapped 3 (by decide)
  -- Both words in one page is the seven bytes in one page.
  have hpages : InPage (computeAddress cirR s) 4 ∧ InPage (computeAddress cirL s) 4 ↔
      InPage (computeAddress cirR s) 7 := by
    have hnext : (computeAddress cirR s + 3).toNat =
        ((computeAddress cirR s).toNat + 3) % 2 ^ 32 := BitVec.toNat_add _ 3
    rw [pair.computeAddress]
    unfold InPage
    omega
  constructor
  · -- `SWR` then `SWL`.
    rw [storesWord_iff rfl rfl pair.target hmapped hR hL, ← and_assoc, hpages]
    refine and_congr_right fun hfit => ?_
    rw [pair.computeAddress]
    exact write_right_left_iff (hR.range hfit)
  · -- `SWL` then `SWR`.
    rw [← pair.target, storesWord_iff rfl rfl pair.target.symm hmapped hL hR, ← and_assoc,
      and_comm (a := InPage (computeAddress cirL s) 4), hpages]
    refine and_congr_right fun hfit => ?_
    rw [pair.computeAddress]
    exact write_left_right_iff (hR.range hfit)

/-- `$t0` points to the first of `twoPages`, `$t1` holds `v`. -/
def storeMachine (v : U32) : Machine :=
  ((⟨Mips.zero, twoPages, []⟩ : Machine).setReg MIPS_R_T0 0x10ff0).setReg MIPS_R_T1 v

theorem mapped_storeMachine (v : U32) : MappedRange (storeMachine v).memory 0x10ff0 4 :=
  (show Mapped twoPages 0x10ff0 by unfold Mapped; decide +kernel).range (by decide)

/-- A machine whose first word is to become `0x11332211`. The bytes `22 33 11` follow it. -/
def followedMachine : Machine :=
  ((program 0x400000 [0xaabbccdd, 0x55113322]).setReg MIPS_R_T0 0x400000).setReg
    MIPS_R_T1 0x11332211

theorem mapped_followedMachine : MappedRange followedMachine.memory 0x400000 4 :=
  (show Mapped followedMachine.memory 0x400000 by unfold Mapped; decide +kernel).range
    (by decide)

theorem followedBy_followedMachine : FollowedBy followedMachine.memory 0x400000 0x11332211 := by
  have h : ∀ i : Fin 3, flat followedMachine.memory (0x400000 + BitVec.ofNat 32 (4 + i.val)) =
      some (byteOf (0x11332211 : U32) (1 + i.val)) := by decide +kernel
  exact fun i hi => memoryReadU8_eq (h ⟨i, hi⟩)

/-- The pair works in both orders: the outer bytes of the word are the same as well. -/
theorem unaligned_store_pair_iff_followed :
    StoresWord failingHost [(0xb9090000, .swr), (0xa9090003, .swl)] followedMachine 0x400000
        0x11332211 ∧
      StoresWord failingHost [(0xa9090003, .swl), (0xb9090000, .swr)] followedMachine 0x400000
        0x11332211 := by
  obtain ⟨hright, hleft⟩ := unaligned_store_pair_iff failingHost 0xb9090000 0xa9090003
    followedMachine ⟨rfl, rfl, by decide⟩ mapped_followedMachine
  exact ⟨hright.mpr ⟨by decide, followedBy_followedMachine, rfl⟩,
    hleft.mpr ⟨by decide, followedBy_followedMachine⟩⟩

/-- `SWL` at `0x10ff3` stores over the three bytes after the word. -/
theorem swl_overwrites :
    ¬ ∀ (host : Host) (cirR cirL : U32) (s : Machine), UnalignedPair cirR cirL →
      MappedRange s.memory (computeAddress cirR s) 4 →
      StoresWord host [(cirR, .swr), (cirL, .swl)] s (computeAddress cirR s) (s.reg (rt cirR)) ∧
      StoresWord host [(cirL, .swl), (cirR, .swr)] s (computeAddress cirR s)
        (s.reg (rt cirR)) := by
  intro h
  obtain ⟨-, t, ht, ⟨m, hm, hreads⟩, -⟩ := h failingHost 0xb9090000 0xa9090003
    (storeMachine 0x11223344) ⟨rfl, rfl, by decide⟩ (mapped_storeMachine _)
  cases hm
  have hrun : okWith (fun t => okWith (· == 0x33) (memoryReadU8 t.memory 0x10ff4))
      (runCode failingHost [(0xa9090003, .swl), (0xb9090000, .swr)] (storeMachine 0x11223344)) =
        true := by decide +kernel
  rw [ht] at hrun
  -- The pair is to keep the zero at `0x10ff4`.
  have hkept : memoryReadU8 t.memory 0x10ff4 = .ok 0 :=
    (hreads 0x10ff4).trans (memoryReadU8_eq (by decide +kernel))
  have hstored : okWith (· == 0x33) (memoryReadU8 t.memory 0x10ff4) = true := hrun
  rw [hkept] at hstored
  cases hstored

end MipsEngines
