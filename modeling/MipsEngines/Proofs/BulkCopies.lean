import MipsEngines.Proofs.PagedMemory

/-!
# `MipsEngines.Proofs.BulkCopies`: what reads and bulk copies see of the bytes

The word accessors and the three bulk loops of `memory.c`, on `flat`. A loop goes page by
page, and each round is one store or one read inside a page. A range may cross any number
of pages and may wrap, since its addresses are those at a distance below its length.
-/

set_option autoImplicit false

namespace MipsEngines

open Lib

/-! ### Ranges -/

/-- The `n` bytes from `address` on are mapped. -/
def MappedRange (memory : Memory) (address : U32) (n : Nat) : Prop :=
  ∀ i, i < n → Mapped memory (address + BitVec.ofNat 32 i)

/-- The distance of byte `i` of a range from its start. -/
theorem toNat_add_sub (a : U32) {i : Nat} (hi : i < 2 ^ 32) :
    (a + BitVec.ofNat 32 i - a).toNat = i := by
  rw [BitVec.add_comm, BitVec.add_sub_cancel, BitVec.toNat_ofNat, Nat.mod_eq_of_lt hi]

/-- A range that ends by `2 ^ 32` is mapped once it is allocated. -/
theorem mappedRange_memoryAllocate (memory : Memory) {address size : U32}
    (hfit : address.toNat + size.toNat ≤ 2 ^ 32) :
    MappedRange (memoryAllocate memory address size) address size.toNat := by
  intro i hi
  unfold Mapped
  rw [flat_memoryAllocate, Store.isSome_allocate]
  refine .inl (inPages_of_sub_lt hfit ?_)
  rwa [toNat_add_sub address (by omega)]

theorem MappedRange.head {memory : Memory} {address : U32} {n : Nat}
    (h : MappedRange memory address n) (hn : 0 < n) : Mapped memory address := by
  simpa using h 0 hn

theorem add_sub_toNat (a b : U32) : a + BitVec.ofNat 32 (b - a).toNat = b := by
  rw [BitVec.ofNat_toNat, BitVec.setWidth_eq, BitVec.add_comm, BitVec.sub_add_cancel]

/-- An address in the range is mapped. -/
theorem MappedRange.mapped {memory : Memory} {address b : U32} {n : Nat}
    (h : MappedRange memory address n) (hb : (b - address).toNat < n) : Mapped memory b := by
  have hi := h _ hb
  rwa [add_sub_toNat] at hi

/-- Two addresses of one page: the byte at a distance from the first. -/
theorem flat_add {memory : Memory} {address : U32} {page : Page} {i : Nat}
    (hpage : pageAt memory address = some page) (hi : (pageOffset address).val + i < PAGE_SIZE) :
    flat memory (address + BitVec.ofNat 32 i) = some (page ⟨(pageOffset address).val + i, hi⟩) := by
  have hlt := address.isLt
  have hi' : address.toNat % 4096 + i < 4096 := by rwa [pageOffset_val] at hi
  have hadd : (address + BitVec.ofNat 32 i).toNat = address.toNat + i := by
    rw [BitVec.toNat_add, BitVec.toNat_ofNat]
    omega
  have hnumber : pageNumber (address + BitVec.ofNat 32 i) = pageNumber address := by
    unfold pageNumber
    omega
  have hoffset : pageOffset (address + BitVec.ofNat 32 i)
      = ⟨(pageOffset address).val + i, hi⟩ := by
    apply Fin.ext
    show (pageOffset _).val = (pageOffset address).val + i
    rw [pageOffset_val, pageOffset_val, hadd]
    omega
  rw [flat_eq_of_pageAt ((pageAt_congr memory hnumber).trans hpage), hoffset]

/-! ### Word accesses -/

theorem memoryReadU8_eq {memory : Memory} {address : U32} {b : U8}
    (h : flat memory address = some b) : memoryReadU8 memory address = .ok b := by
  obtain ⟨page, hpage⟩ := mapped_iff.mp (Option.isSome_of_mem h)
  unfold memoryReadU8
  rw [memoryFindPage_eq_ok.mpr hpage, ok_bind]
  rw [flat_eq_of_pageAt hpage] at h
  exact congrArg Except.ok (Option.some.inj h)

/-- A halfword inside a page, the byte at the higher address first. -/
theorem memoryReadU16_of_fit {memory : Memory} {address : U32} {b₀ b₁ : U8}
    (hfit : address.toNat % 4096 + 2 ≤ 4096) (h₀ : flat memory address = some b₀)
    (h₁ : flat memory (address + 1) = some b₁) :
    memoryReadU16 memory address = .ok (b₁ ++ b₀) := by
  obtain ⟨page, hpage⟩ := mapped_iff.mp (Option.isSome_of_mem h₀)
  have hfit' : (pageOffset address).val + 2 ≤ PAGE_SIZE := by rwa [pageOffset_val]
  rw [flat_eq_of_pageAt hpage] at h₀
  have hb₁ := (flat_add (i := 1) hpage (by omega)).symm.trans h₁
  unfold memoryReadU16
  rw [memoryFindPage_eq_ok.mpr hpage, ok_bind, dif_pos hfit', ← Option.some.inj h₀,
    ← Option.some.inj hb₁]
  rfl

/-- A word inside a page, the byte at the highest address first. -/
theorem memoryReadU32_of_fit {memory : Memory} {address : U32} {b₀ b₁ b₂ b₃ : U8}
    (hfit : address.toNat % 4096 + 4 ≤ 4096) (h₀ : flat memory address = some b₀)
    (h₁ : flat memory (address + 1) = some b₁) (h₂ : flat memory (address + 2) = some b₂)
    (h₃ : flat memory (address + 3) = some b₃) :
    memoryReadU32 memory address = .ok (b₃ ++ b₂ ++ b₁ ++ b₀) := by
  obtain ⟨page, hpage⟩ := mapped_iff.mp (Option.isSome_of_mem h₀)
  have hfit' : (pageOffset address).val + 4 ≤ PAGE_SIZE := by rwa [pageOffset_val]
  rw [flat_eq_of_pageAt hpage] at h₀
  have hb₁ := (flat_add (i := 1) hpage (by omega)).symm.trans h₁
  have hb₂ := (flat_add (i := 2) hpage (by omega)).symm.trans h₂
  have hb₃ := (flat_add (i := 3) hpage (by omega)).symm.trans h₃
  unfold memoryReadU32
  rw [memoryFindPage_eq_ok.mpr hpage, ok_bind, dif_pos hfit', ← Option.some.inj h₀,
    ← Option.some.inj hb₁, ← Option.some.inj hb₂, ← Option.some.inj hb₃]
  rfl

/-- An aligned halfword lies in one page. -/
theorem memoryReadU16_eq {memory : Memory} {address : U32} {b₀ b₁ : U8}
    (haligned : address.toNat % 2 = 0) (h₀ : flat memory address = some b₀)
    (h₁ : flat memory (address + 1) = some b₁) :
    memoryReadU16 memory address = .ok (b₁ ++ b₀) :=
  memoryReadU16_of_fit (by omega) h₀ h₁

/-- An aligned word lies in one page. -/
theorem memoryReadU32_eq {memory : Memory} {address : U32} {b₀ b₁ b₂ b₃ : U8}
    (haligned : address.toNat % 4 = 0) (h₀ : flat memory address = some b₀)
    (h₁ : flat memory (address + 1) = some b₁) (h₂ : flat memory (address + 2) = some b₂)
    (h₃ : flat memory (address + 3) = some b₃) :
    memoryReadU32 memory address = .ok (b₃ ++ b₂ ++ b₁ ++ b₀) :=
  memoryReadU32_of_fit (by omega) h₀ h₁ h₂ h₃

/-- A store of an aligned power of two of bytes stays in its page. -/
theorem memoryStore_aligned {memory : Memory} {address : U32} {n : Nat} (bytes : Nat → U8)
    (hmapped : Mapped memory address) (hn : n = 1 ∨ n = 2 ∨ n = 4)
    (haligned : address.toNat % n = 0) :
    ∃ memory', memoryStore memory address n bytes = .ok memory' ∧
      flat memory' = (flat memory).write (rangeData address n bytes) := by
  have hfit : address.toNat % 4096 + n ≤ 4096 := by
    rcases hn with rfl | rfl | rfl <;> omega
  exact memoryStore_eq bytes hmapped hfit

/-! ### One round of a loop -/

theorem chunk_toNat (address size : U32) :
    (chunk address size).toNat = min size.toNat (4096 - address.toNat % 4096) := by
  have hoffset : (address &&& OFFSET_MASK).toNat = address.toNat % 4096 :=
    toNat_and_mask _ _ 12 rfl
  have hrest : (OFFSET_MASK + 1 - (address &&& OFFSET_MASK)).toNat
      = 4096 - address.toNat % 4096 := by
    rw [BitVec.toNat_sub, hoffset]
    show (2 ^ 32 - address.toNat % 4096 + 4096) % 2 ^ 32 = _
    omega
  unfold chunk
  simp only [BitVec.lt_def, hrest]
  split_ifs with h
  · omega
  · rw [hrest]
    omega

/-- One round of a loop with bytes left: the chunk stays in the page of the address, and the
next round has the rest of the range. -/
structure Round (address size amount : U32) : Prop where
  pos : 0 < amount.toNat
  le : amount.toNat ≤ size.toNat
  inPage : address.toNat % 4096 + amount.toNat ≤ 4096
  rest : (size - amount).toNat = size.toNat - amount.toNat

theorem round_chunk {size : U32} (address : U32) (hsize : size ≠ 0) :
    Round address size (chunk address size) := by
  have hpos : 0 < size.toNat := by
    apply Nat.pos_of_ne_zero
    intro h
    exact hsize (BitVec.eq_of_toNat_eq h)
  have hk := chunk_toNat address size
  have hle : (chunk address size).toNat ≤ size.toNat := by omega
  exact ⟨by omega, hle, by omega, BitVec.toNat_sub_of_le hle⟩

theorem add_eq_add_ofNat (address amount : U32) :
    address + amount = address + BitVec.ofNat 32 amount.toNat := by
  rw [BitVec.ofNat_toNat, BitVec.setWidth_eq]

/-- Byte `i` of the next round. -/
theorem next_add (address amount : U32) (i : Nat) :
    address + amount + BitVec.ofNat 32 i = address + BitVec.ofNat 32 (amount.toNat + i) := by
  rw [add_eq_add_ofNat address amount, BitVec.add_assoc, ← BitVec.ofNat_add]

/-- The data of a range that starts `k` bytes on, by the distance from `address`. -/
theorem rangeData_add (address : U32) {k n : Nat} (bytes : Nat → U8) (h : k + n ≤ 2 ^ 32)
    (b : U32) : rangeData (address + BitVec.ofNat 32 k) n bytes b =
      if k ≤ (b - address).toNat ∧ (b - address).toNat < k + n then
        some (bytes ((b - address).toNat - k)) else none := by
  have hlt := (b - address).isLt
  have hdist : (b - (address + BitVec.ofNat 32 k)).toNat
      = ((b - address).toNat + (2 ^ 32 - k)) % 2 ^ 32 := by
    rw [← BitVec.sub_sub, BitVec.toNat_sub, BitVec.toNat_ofNat]
    omega
  unfold rangeData
  by_cases hin : k ≤ (b - address).toNat ∧ (b - address).toNat < k + n
  · rw [if_pos hin, if_pos (by omega),
      show (b - (address + BitVec.ofNat 32 k)).toNat = (b - address).toNat - k by omega]
  · rw [if_neg hin, if_neg (by omega)]

/-- The data of a range, split in two. -/
theorem rangeData_append (address : U32) {k n : Nat} (bytes : Nat → U8) (h : k + n ≤ 2 ^ 32) :
    (fun b => (rangeData (address + BitVec.ofNat 32 k) n (fun i => bytes (k + i)) b).or
      (rangeData address k bytes b)) = rangeData address (k + n) bytes := by
  funext b
  rw [rangeData_add address _ h]
  unfold rangeData
  by_cases hk : (b - address).toNat < k
  · -- In the first part, so not in the second.
    rw [if_pos hk, if_pos (Nat.lt_add_right n hk), if_neg (by omega)]
    rfl
  · rw [if_neg hk, Option.or_none]
    by_cases hn : (b - address).toNat < k + n
    · rw [if_pos hn, if_pos (by omega), Nat.add_sub_cancel' (Nat.not_lt.mp hk)]
    · rw [if_neg hn, if_neg (by omega)]

theorem rangeData_zero (address : U32) (bytes : Nat → U8) (b : U32) :
    rangeData address 0 bytes b = none := if_neg (Nat.not_lt_zero _)

/-! ### The loops -/

/-- The writing loop over mapped bytes. -/
theorem copyWriteLoop_eq {fuel : Nat} {memory : Memory} {address size : U32}
    (buffer : Nat → U8) (hfuel : size.toNat ≤ fuel)
    (hmapped : MappedRange memory address size.toNat) :
    ∃ memory', copyWriteLoop fuel memory address size buffer = .ok memory' ∧
      flat memory' = (flat memory).write (rangeData address size.toNat buffer) := by
  induction fuel generalizing memory address size buffer with
  | zero =>
      have hsize : size.toNat = 0 := by omega
      refine ⟨memory, rfl, ?_⟩
      funext b
      simp [Store.write, hsize, rangeData_zero]
  | succ fuel ih =>
      unfold copyWriteLoop
      by_cases hsize : size = 0
      · rw [if_pos hsize]
        refine ⟨memory, rfl, ?_⟩
        funext b
        simp [Store.write, hsize, rangeData_zero]
      · have hround := round_chunk address hsize
        have hrest := hround.rest
        have hle := hround.le
        have hlt := size.isLt
        generalize chunk address size = amount at *
        obtain ⟨memory₁, hstore, hflat₁⟩ := memoryStore_eq (n := amount.toNat) buffer
          (hmapped.head (Nat.lt_of_lt_of_le hround.pos hle)) hround.inPage
        -- What is left is mapped, after the store as before it.
        have hmapped₁ : MappedRange memory₁ (address + amount) (size - amount).toNat := by
          intro i hi
          rw [Mapped.write hflat₁, next_add]
          exact hmapped _ (by omega)
        have hfuel₁ : (size - amount).toNat ≤ fuel := by
          have hpos := hround.pos
          omega
        obtain ⟨memory₂, hloop, hflat₂⟩ :=
          ih (fun i => buffer (amount.toNat + i)) hfuel₁ hmapped₁
        refine ⟨memory₂, ?_, ?_⟩
        · rw [if_neg hsize]
          dsimp only
          rw [hstore, ok_bind]
          exact hloop
        · have hsum : amount.toNat + (size - amount).toNat = size.toNat := by omega
          rw [hflat₂, hflat₁, Store.write_write, add_eq_add_ofNat address amount,
            rangeData_append _ _ (by omega), hsum]

theorem memoryCopyWrite_eq {memory : Memory} {address size : U32} (buffer : Nat → U8)
    (hmapped : MappedRange memory address size.toNat) :
    ∃ memory', memoryCopyWrite memory address size buffer = .ok memory' ∧
      flat memory' = (flat memory).write (rangeData address size.toNat buffer) :=
  copyWriteLoop_eq buffer (Nat.le_refl _) hmapped

theorem memorySet_eq {memory : Memory} {address size : U32} (value : U32)
    (hmapped : MappedRange memory address size.toNat) :
    ∃ memory', memorySet memory address size value = .ok memory' ∧
      flat memory' = (flat memory).write
        (rangeData address size.toNat fun _ => value.setWidth 8) :=
  copyWriteLoop_eq (fun _ => value.setWidth 8) (Nat.le_refl _) hmapped

/-- The writing loop is a sequence of stores, wherever it writes. -/
theorem copyWriteLoop_stored {fuel : Nat} {memory memory' : Memory} {address size : U32}
    {buffer : Nat → U8} (h : copyWriteLoop fuel memory address size buffer = .ok memory') :
    Stored memory memory' := by
  induction fuel generalizing memory address size buffer with
  | zero =>
      cases h
      exact .refl
  | succ fuel ih =>
      unfold copyWriteLoop at h
      split_ifs at h with hsize
      · cases h
        exact .refl
      · obtain ⟨memory₁, hstore, h⟩ := bind_eq_ok.mp h
        exact (Stored.store hstore).trans (ih h)

theorem copyWriteLoop_sameMarks {fuel : Nat} {memory memory' : Memory} {address size : U32}
    {buffer : Nat → U8} (h : copyWriteLoop fuel memory address size buffer = .ok memory') :
    SameMarks memory memory' :=
  (copyWriteLoop_stored h).sameMarks

/-- The bytes of one round, taken from the page at once. -/
theorem pageBytes_eq {memory : Memory} {address : U32} {n : Nat} {page : Page} {bytes : Nat → U8}
    (hpage : pageAt memory address = some page) (hinPage : address.toNat % 4096 + n ≤ 4096)
    (hbytes : ∀ i, i < n → flat memory (address + BitVec.ofNat 32 i) = some (bytes i)) :
    ((List.range n).map fun i => page (Fin.ofNat PAGE_SIZE ((pageOffset address).val + i)))
      = (List.range n).map bytes := by
  apply List.map_congr_left
  intro i hi
  have hin : i < n := List.mem_range.mp hi
  have hfit : (pageOffset address).val + i < PAGE_SIZE := by
    rw [pageOffset_val]
    show _ < 4096
    omega
  have hbyte := (flat_add hpage hfit).symm.trans (hbytes i hin)
  rw [← Option.some.inj hbyte]
  exact congrArg page (Fin.ext (Nat.mod_eq_of_lt hfit))

/-- The reading loop over mapped bytes. -/
theorem copyReadLoop_eq {fuel : Nat} {memory : Memory} {address size : U32} {bytes : Nat → U8}
    (hfuel : size.toNat ≤ fuel)
    (hbytes : ∀ i, i < size.toNat → flat memory (address + BitVec.ofNat 32 i) = some (bytes i)) :
    copyReadLoop fuel memory address size = .ok ((List.range size.toNat).map bytes) := by
  induction fuel generalizing address size bytes with
  | zero =>
      have hsize : size.toNat = 0 := by omega
      rw [hsize]
      rfl
  | succ fuel ih =>
      unfold copyReadLoop
      by_cases hsize : size = 0
      · rw [if_pos hsize, hsize]
        rfl
      · have hround := round_chunk address hsize
        have hrest := hround.rest
        have hle := hround.le
        have hpos := hround.pos
        generalize chunk address size = amount at *
        have hfirst : flat memory address = some (bytes 0) := by
          simpa using hbytes 0 (by omega)
        obtain ⟨page, hpage⟩ := mapped_iff.mp (Option.isSome_of_mem hfirst)
        have hhere := pageBytes_eq hpage hround.inPage fun i hi => hbytes i (by omega)
        have hleft : ∀ i, i < (size - amount).toNat →
            flat memory (address + amount + BitVec.ofNat 32 i) = some (bytes (amount.toNat + i)) := by
          intro i hi
          rw [next_add]
          exact hbytes _ (by omega)
        have hloop := ih (by omega) hleft
        rw [if_neg hsize, memoryFindPage_eq_ok.mpr hpage, ok_bind]
        dsimp only
        rw [hloop, ok_bind, hhere]
        -- The bytes of this round, then those of the loop.
        have hsum : size.toNat = amount.toNat + (size - amount).toNat := by omega
        rw [hsum, List.range_add, List.map_append, List.map_map]
        rfl

theorem memoryCopyRead_eq {memory : Memory} {address size : U32} {bytes : Nat → U8}
    (hbytes : ∀ i, i < size.toNat → flat memory (address + BitVec.ofNat 32 i) = some (bytes i)) :
    memoryCopyRead memory address size = .ok ((List.range size.toNat).map bytes) :=
  copyReadLoop_eq (Nat.le_refl _) hbytes

end MipsEngines
