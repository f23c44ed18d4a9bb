import MipsEngines.Proofs.BulkCopies

/-!
# `MipsEngines.Proofs.WordAccess`: word accesses at any address

The instructions check no alignment, so the word accessors of `memory.h` get every
address. They translate it once and take the whole access from that page, where
`memory_copy_read` and `memory_copy_write` go on with the next one.
`word_access_iff` says that an access agrees with the byte accesses exactly when it
ends inside its page.
-/

set_option autoImplicit false

namespace MipsEngines

open Lib

/-- The `n` bytes from `a` on lie in one page. -/
def InPage (a : U32) (n : Nat) : Prop := a.toNat % 4096 + n ≤ 4096

instance (a : U32) (n : Nat) : Decidable (InPage a n) := inferInstanceAs (Decidable (_ ≤ _))

/-- `memory_read_u16` puts together what `memory_read_u8` returns. -/
def ReadsHalf (memory : Memory) (a : U32) : Prop :=
  ∃ b₀ b₁, memoryReadU8 memory a = .ok b₀ ∧ memoryReadU8 memory (a + 1) = .ok b₁ ∧
    memoryReadU16 memory a = .ok (b₁ ++ b₀)

/-- `memory_read_u32` puts together what `memory_read_u8` returns. -/
def ReadsWord (memory : Memory) (a : U32) : Prop :=
  ∃ b₀ b₁ b₂ b₃, memoryReadU8 memory a = .ok b₀ ∧ memoryReadU8 memory (a + 1) = .ok b₁ ∧
    memoryReadU8 memory (a + 2) = .ok b₂ ∧ memoryReadU8 memory (a + 3) = .ok b₃ ∧
    memoryReadU32 memory a = .ok (b₃ ++ b₂ ++ b₁ ++ b₀)

/-- A write of `n` bytes from `a` on: they change to `bytes`, and no other does. -/
def WritesBytes (memory : Memory) (a : U32) (n : Nat) (bytes : Nat → U8)
    (written : Except Fault Memory) : Prop :=
  ∃ memory', written = .ok memory' ∧ ∀ b, memoryReadU8 memory' b =
    if (b - a).toNat < n then .ok (bytes (b - a).toNat) else memoryReadU8 memory b

/-! ### Inside a page -/

/-- The byte at an address, 0 where it is unmapped. -/
def flatByte (memory : Memory) (b : U32) : U8 := (flat memory b).getD 0

theorem flat_eq_flatByte {memory : Memory} {b : U32} (h : Mapped memory b) :
    flat memory b = some (flatByte memory b) := by
  obtain ⟨byte, hbyte⟩ := Option.isSome_iff_exists.mp h
  rw [flatByte, hbyte, Option.getD_some]

/-- The little-endian word at an address. -/
def flatWord (memory : Memory) (a : U32) : U32 :=
  flatByte memory (a + 3) ++ flatByte memory (a + 2) ++ flatByte memory (a + 1) ++
    flatByte memory a

/-- A word inside a page. -/
theorem memoryReadU32_flatWord {memory : Memory} {a : U32} (hmapped : MappedRange memory a 4)
    (hfit : InPage a 4) : memoryReadU32 memory a = .ok (flatWord memory a) :=
  memoryReadU32_of_fit hfit (flat_eq_flatByte (hmapped.head (by decide)))
    (flat_eq_flatByte (hmapped 1 (by decide))) (flat_eq_flatByte (hmapped 2 (by decide)))
    (flat_eq_flatByte (hmapped 3 (by decide)))

theorem memoryReadU8_eq_flat (memory : Memory) (b : U32) :
    memoryReadU8 memory b =
      match flat memory b with
      | none => .error .unmapped
      | some byte => .ok byte := by
  cases h : flat memory b with
  | some byte => exact memoryReadU8_eq h
  | none =>
      -- No byte means no page, and translation fails at the `NULL`.
      have hpage : pageAt memory b = none := Option.map_eq_none_iff.mp h
      unfold pageAt at hpage
      unfold memoryReadU8 memoryFindPage
      cases htable : memory.pageTables (ptIdx b) with
      | none => rfl
      | some table =>
          rw [htable, Option.bind_some] at hpage
          simp only [hpage]
          rfl

/-- `memory_read_u8` tells the bytes. -/
theorem memoryReadU8_eq_ok {memory : Memory} {b : U32} {byte : U8} :
    memoryReadU8 memory b = .ok byte ↔ flat memory b = some byte := by
  rw [memoryReadU8_eq_flat]
  cases flat memory b <;> simp

/-- A write, as the bytes read back one at a time and as a write of the store. -/
theorem writesBytes_ok_iff {memory memory' : Memory} {a : U32} {n : Nat} {bytes : Nat → U8}
    (hmapped : MappedRange memory a n) :
    WritesBytes memory a n bytes (.ok memory') ↔
      flat memory' = (flat memory).write (rangeData a n bytes) := by
  -- The bytes of the store that is written to, as reads.
  have hread : ∀ b, (match (flat memory).write (rangeData a n bytes) b with
      | none => .error .unmapped
      | some byte => .ok byte : Except Fault U8) =
      if (b - a).toNat < n then .ok (bytes (b - a).toNat) else memoryReadU8 memory b := by
    intro b
    rw [memoryReadU8_eq_flat]
    by_cases hin : (b - a).toNat < n
    · obtain ⟨byte, hbyte⟩ := Option.isSome_iff_exists.mp (hmapped.mapped hin)
      simp only [Store.write, rangeData, if_pos hin, hbyte, Option.map_some, Option.getD_some]
    · simp only [Store.write, rangeData, if_neg hin, Option.getD_none, Option.map_id']
  constructor
  · rintro ⟨m, hm, hreads⟩
    cases hm
    funext b
    have hb := hreads b
    rw [← hread b, memoryReadU8_eq_flat] at hb
    cases h : flat memory' b <;> cases h' : (flat memory).write (rangeData a n bytes) b <;>
      simp_all
  · intro hflat
    refine ⟨memory', rfl, fun b => ?_⟩
    rw [memoryReadU8_eq_flat, hflat, hread b]

/-- A store that ends inside its page. -/
theorem memoryStore_writesBytes {memory : Memory} {a : U32} {n : Nat} (bytes : Nat → U8)
    (hn : 0 < n) (hmapped : MappedRange memory a n) (hfit : InPage a n) :
    WritesBytes memory a n bytes (memoryStore memory a n bytes) := by
  obtain ⟨memory', hstore, hflat⟩ := memoryStore_eq bytes (hmapped.head hn) hfit
  rw [hstore]
  exact (writesBytes_ok_iff hmapped).2 hflat

/-- The bytes of one page are mapped together. -/
theorem Mapped.range {memory : Memory} {a : U32} {n : Nat} (h : Mapped memory a)
    (hfit : InPage a n) : MappedRange memory a n := by
  intro i hi
  have ha := a.isLt
  unfold InPage at hfit
  apply h.congr
  unfold pageNumber
  rw [BitVec.toNat_add, BitVec.toNat_ofNat]
  omega

/-! ### Past the end of a page -/

theorem memoryReadU16_overrun {memory : Memory} {a : U32} (hmapped : Mapped memory a)
    (hout : ¬InPage a 2) : memoryReadU16 memory a = .error .overrun := by
  obtain ⟨page, hpage⟩ := mapped_iff.mp hmapped
  unfold memoryReadU16
  rw [memoryFindPage_eq_ok.mpr hpage, ok_bind, dif_neg (by rwa [pageOffset_val])]

theorem memoryReadU32_overrun {memory : Memory} {a : U32} (hmapped : Mapped memory a)
    (hout : ¬InPage a 4) : memoryReadU32 memory a = .error .overrun := by
  obtain ⟨page, hpage⟩ := mapped_iff.mp hmapped
  unfold memoryReadU32
  rw [memoryFindPage_eq_ok.mpr hpage, ok_bind, dif_neg (by rwa [pageOffset_val])]

theorem memoryStore_overrun {memory : Memory} {a : U32} {n : Nat} (bytes : Nat → U8)
    (hmapped : Mapped memory a) (hout : ¬InPage a n) :
    memoryStore memory a n bytes = .error .overrun := by
  obtain ⟨page, hpage⟩ := mapped_iff.mp hmapped
  unfold memoryStore
  rw [memoryFindPage_eq_ok.mpr hpage, ok_bind, if_neg (by rwa [pageOffset_val])]

/-! ### Each accessor -/

/-- A byte of a mapped range, as `memory_read_u8` returns it. -/
theorem MappedRange.byte {memory : Memory} {a : U32} {n : Nat} (h : MappedRange memory a n)
    (i : Nat) (hi : i < n) : ∃ byte, flat memory (a + BitVec.ofNat 32 i) = some byte :=
  Option.isSome_iff_exists.mp (h i hi)

theorem readsHalf_iff {memory : Memory} {a : U32} (hmapped : MappedRange memory a 2) :
    ReadsHalf memory a ↔ InPage a 2 := by
  constructor
  · rintro ⟨b₀, b₁, -, -, hread⟩
    by_contra hout
    rw [memoryReadU16_overrun (hmapped.head (by decide)) hout] at hread
    cases hread
  · intro hfit
    obtain ⟨b₀, h₀⟩ := hmapped.byte 0 (by decide)
    obtain ⟨b₁, h₁⟩ := hmapped.byte 1 (by decide)
    rw [show a + BitVec.ofNat 32 0 = a from BitVec.add_zero a] at h₀
    exact ⟨b₀, b₁, memoryReadU8_eq h₀, memoryReadU8_eq h₁, memoryReadU16_of_fit hfit h₀ h₁⟩

theorem readsWord_iff {memory : Memory} {a : U32} (hmapped : MappedRange memory a 4) :
    ReadsWord memory a ↔ InPage a 4 := by
  constructor
  · rintro ⟨b₀, b₁, b₂, b₃, -, -, -, -, hread⟩
    by_contra hout
    rw [memoryReadU32_overrun (hmapped.head (by decide)) hout] at hread
    cases hread
  · intro hfit
    obtain ⟨b₀, h₀⟩ := hmapped.byte 0 (by decide)
    obtain ⟨b₁, h₁⟩ := hmapped.byte 1 (by decide)
    obtain ⟨b₂, h₂⟩ := hmapped.byte 2 (by decide)
    obtain ⟨b₃, h₃⟩ := hmapped.byte 3 (by decide)
    rw [show a + BitVec.ofNat 32 0 = a from BitVec.add_zero a] at h₀
    exact ⟨b₀, b₁, b₂, b₃, memoryReadU8_eq h₀, memoryReadU8_eq h₁, memoryReadU8_eq h₂,
      memoryReadU8_eq h₃, memoryReadU32_of_fit hfit h₀ h₁ h₂ h₃⟩

theorem memoryStore_writesBytes_iff {memory : Memory} {a : U32} {n : Nat} (bytes : Nat → U8)
    (hn : 0 < n) (hmapped : MappedRange memory a n) :
    WritesBytes memory a n bytes (memoryStore memory a n bytes) ↔ InPage a n := by
  constructor
  · rintro ⟨memory', hstore, -⟩
    by_contra hout
    rw [memoryStore_overrun bytes (hmapped.head hn) hout] at hstore
    cases hstore
  · exact memoryStore_writesBytes bytes hn hmapped

/-- Halfword and word accesses to mapped bytes agree with the byte accesses exactly
when they end inside the page they start in. -/
theorem word_access_iff (memory : Memory) (a : U32) :
    (MappedRange memory a 2 →
      (ReadsHalf memory a ↔ InPage a 2) ∧
      ∀ data : U16, WritesBytes memory a 2 (byteOf data) (memoryWriteU16 memory a data) ↔
        InPage a 2) ∧
    (MappedRange memory a 4 →
      (ReadsWord memory a ↔ InPage a 4) ∧
      ∀ data : U32, WritesBytes memory a 4 (byteOf data) (memoryWriteU32 memory a data) ↔
        InPage a 4) :=
  ⟨fun hmapped => ⟨readsHalf_iff hmapped,
    fun data => memoryStore_writesBytes_iff (byteOf data) (by decide) hmapped⟩,
    fun hmapped => ⟨readsWord_iff hmapped,
      fun data => memoryStore_writesBytes_iff (byteOf data) (by decide) hmapped⟩⟩

/-- Two pages, side by side. -/
def twoPages : Memory := memoryAllocate Memory.empty 0x10000 0x2000

theorem mapped_twoPages : MappedRange twoPages 0x10ffe 4 := by
  have h : ∀ i : Fin 4, Mapped twoPages (0x10ffe + BitVec.ofNat 32 i.val) := by
    unfold Mapped
    decide +kernel
  exact fun i hi => h ⟨i, hi⟩

theorem word_access_iff_twoPages : ReadsHalf twoPages 0x10ffe ∧ ¬ReadsWord twoPages 0x10ffe :=
  ⟨((word_access_iff twoPages 0x10ffe).1 fun i hi => mapped_twoPages i (by omega)).1.2 (by decide),
    fun h => absurd (((word_access_iff twoPages 0x10ffe).2 mapped_twoPages).1.1 h) (by decide)⟩

/-- A word that starts two bytes before the end of a page, with the next page mapped. -/
theorem word_access_straddles :
    ¬ ∀ (memory : Memory) (a : U32), MappedRange memory a 4 →
      ReadsWord memory a ∧
        ∀ data : U32, WritesBytes memory a 4 (byteOf data) (memoryWriteU32 memory a data) := by
  intro h
  obtain ⟨b₀, b₁, b₂, b₃, -, -, -, -, hread⟩ := (h twoPages 0x10ffe mapped_twoPages).1
  rw [memoryReadU32_overrun (mapped_twoPages.head (by decide)) (by decide)] at hread
  cases hread

end MipsEngines
