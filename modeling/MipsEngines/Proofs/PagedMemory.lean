import Mathlib.Logic.Relation
import MipsEngines.Lib.Except
import MipsEngines.Lib.Store
import MipsEngines.Model.Memory

/-!
# `MipsEngines.Proofs.PagedMemory`: the paged memory as a store of bytes

`flat` is the byte at each mapped address. What each function of `memory.c` and
`memory.h` does is stated on it:

* `flat_memoryAllocate`: the pages that meet the range are mapped, bytes that were
  there stay.
* `memoryStore_eq`, `memoryCopyWrite_eq`, `memorySet_eq`: over mapped bytes the stores
  succeed and write the bytes of their range, which may wrap.
* `memoryReadU8_eq` and its relatives: what reads return.

Pages enter the proofs through `pageAt` and `pageNumber` only.
-/

set_option autoImplicit false

namespace MipsEngines

open Lib

/-! ### Pages -/

/-- The page an address lies in, if it is mapped. -/
def pageAt (memory : Memory) (address : U32) : Option Page :=
  (memory.pageTables (ptIdx address)).bind fun table => table (peIdx address)

/-- The number of the page an address lies in. -/
def pageNumber (address : U32) : Nat := address.toNat / 4096

theorem ptIdx_val (address : U32) : (ptIdx address).val = address.toNat / 4194304 := by
  have hlt := address.isLt
  show ((address >>> PT_SHIFT) &&& PT_MASK).toNat = _
  rw [toNat_and_mask _ _ 10 rfl, BitVec.toNat_ushiftRight, Nat.shiftRight_eq_div_pow]
  show address.toNat / 4194304 % 1024 = _
  omega

theorem peIdx_val (address : U32) : (peIdx address).val = address.toNat / 4096 % 1024 := by
  show ((address >>> PE_SHIFT) &&& PE_MASK).toNat = _
  rw [toNat_and_mask _ _ 10 rfl, BitVec.toNat_ushiftRight, Nat.shiftRight_eq_div_pow]
  rfl

theorem pageOffset_val (address : U32) : (pageOffset address).val = address.toNat % 4096 :=
  toNat_and_mask _ _ 12 rfl

/-- A page number is a pair of indices. -/
theorem pageNumber_eq (address : U32) :
    pageNumber address = (ptIdx address).val * 1024 + (peIdx address).val := by
  rw [ptIdx_val, peIdx_val]
  unfold pageNumber
  omega

theorem index_eq_iff (a b : U32) :
    (ptIdx a = ptIdx b ∧ peIdx a = peIdx b) ↔ pageNumber a = pageNumber b := by
  have ha : (peIdx a).val < 1024 := (peIdx a).isLt
  have hb : (peIdx b).val < 1024 := (peIdx b).isLt
  rw [pageNumber_eq, pageNumber_eq, Fin.ext_iff, Fin.ext_iff]
  omega

theorem pageAt_congr (memory : Memory) {a b : U32} (h : pageNumber a = pageNumber b) :
    pageAt memory a = pageAt memory b := by
  obtain ⟨hpt, hpe⟩ := (index_eq_iff a b).mpr h
  unfold pageAt
  rw [hpt, hpe]

theorem memoryFindPage_eq_ok {memory : Memory} {address : U32} {page : Page} :
    memoryFindPage memory address = .ok page ↔ pageAt memory address = some page := by
  unfold memoryFindPage pageAt
  cases memory.pageTables (ptIdx address) with
  | none => simp
  | some table =>
      dsimp only [Option.bind]
      cases table (peIdx address) <;> simp

/-- A page is replaced. -/
theorem pageAt_setPage {memory : Memory} {address : U32} {old : Page} (page : Page)
    (hold : pageAt memory address = some old) (b : U32) :
    pageAt (memory.setPage address page) b
      = if pageNumber b = pageNumber address then some page else pageAt memory b := by
  unfold pageAt at hold ⊢
  simp only [Memory.setPage]
  by_cases hpt : ptIdx b = ptIdx address
  · rw [if_pos hpt, hpt]
    cases htable : memory.pageTables (ptIdx address) with
    | none => rw [htable] at hold; cases hold
    | some table =>
        rw [Option.map_some, Option.bind_some, Option.bind_some]
        show (if peIdx b = peIdx address then _ else _) = _
        by_cases hpe : peIdx b = peIdx address
        · rw [if_pos hpe, if_pos ((index_eq_iff b address).mp ⟨hpt, hpe⟩)]
        · rw [if_neg hpe, if_neg fun h => hpe ((index_eq_iff b address).mpr h).2]
  · rw [if_neg hpt, if_neg fun h => hpt ((index_eq_iff b address).mpr h).1]

/-! ### Bytes -/

/-- The byte at each mapped address. -/
def flat (memory : Memory) : Store U32 U8 :=
  fun address => (pageAt memory address).map fun page => page (pageOffset address)

/-- The address is mapped. -/
def Mapped (memory : Memory) (address : U32) : Prop := (flat memory address).isSome

theorem mapped_iff {memory : Memory} {address : U32} :
    Mapped memory address ↔ ∃ page, pageAt memory address = some page := by
  simp [Mapped, flat, Option.isSome_iff_exists]

/-- The addresses of a page are mapped together. -/
theorem Mapped.congr {memory : Memory} {a b : U32} (h : pageNumber a = pageNumber b)
    (ha : Mapped memory a) : Mapped memory b := by
  rw [mapped_iff] at ha ⊢
  rwa [← pageAt_congr memory h]

theorem flat_eq_of_pageAt {memory : Memory} {address : U32} {page : Page}
    (h : pageAt memory address = some page) :
    flat memory address = some (page (pageOffset address)) := by
  unfold flat
  rw [h]
  rfl

/-- The data of `n` bytes from `address` on, wrapping: byte `i` is `bytes i`. -/
def rangeData (address : U32) (n : Nat) (bytes : Nat → U8) : U32 → Option U8 :=
  fun b => if (b - address).toNat < n then some (bytes (b - address).toNat) else none

/-- Two memories that differ in their pages only. -/
def SameMarks (m m' : Memory) : Prop := m' = { m with pageTables := m'.pageTables }

theorem SameMarks.refl (m : Memory) : SameMarks m m := rfl

theorem SameMarks.trans {m₁ m₂ m₃ : Memory} (h : SameMarks m₁ m₂) (h' : SameMarks m₂ m₃) :
    SameMarks m₁ m₃ := by
  unfold SameMarks at *
  rw [h', h]

/-! ### Stores -/

/-- An address in the same page, by its distance. -/
theorem sub_lt_iff {a b : U32} {n : Nat} (hfit : a.toNat % 4096 + n ≤ 4096) :
    (b - a).toNat < n ↔ pageNumber b = pageNumber a ∧ a.toNat % 4096 ≤ b.toNat % 4096 ∧
      b.toNat % 4096 < a.toNat % 4096 + n := by
  have ha := a.isLt
  have hb := b.isLt
  unfold pageNumber
  rw [BitVec.toNat_sub]
  omega

/-- A store within a mapped page. -/
theorem memoryStore_eq {memory : Memory} {address : U32} {n : Nat} (bytes : Nat → U8)
    (hmapped : Mapped memory address) (hfit : address.toNat % 4096 + n ≤ 4096) :
    ∃ memory', memoryStore memory address n bytes = .ok memory' ∧
      flat memory' = (flat memory).write (rangeData address n bytes) := by
  obtain ⟨page, hpage⟩ := mapped_iff.mp hmapped
  have hfit' : (pageOffset address).val + n ≤ PAGE_SIZE := by
    rw [pageOffset_val]
    exact hfit
  -- The page after the store, as `memoryStore` builds it.
  let stored : Page := fun i =>
    if (pageOffset address).val ≤ i.val ∧ i.val < (pageOffset address).val + n then
      bytes (i.val - (pageOffset address).val) else page i
  refine ⟨memory.setPage address stored, ?_, ?_⟩
  · unfold memoryStore
    rw [memoryFindPage_eq_ok.mpr hpage, ok_bind, if_pos hfit']
    rfl
  · funext b
    have hrange := sub_lt_iff (b := b) hfit
    have hstored : stored (pageOffset b) =
        if address.toNat % 4096 ≤ b.toNat % 4096 ∧ b.toNat % 4096 < address.toNat % 4096 + n then
          bytes (b.toNat % 4096 - address.toNat % 4096) else page (pageOffset b) := by
      rw [← pageOffset_val address, ← pageOffset_val b]
    simp only [flat, Store.write, rangeData, pageAt_setPage _ hpage]
    by_cases hsame : pageNumber b = pageNumber address
    · rw [if_pos hsame, pageAt_congr memory hsame, hpage, Option.map_some, Option.map_some,
        Option.map_some, hstored]
      by_cases hin : (b - address).toNat < n
      · -- In one page the distance of offsets is the distance of addresses.
        obtain ⟨-, hle, hlt⟩ := hrange.mp hin
        have hdist : b.toNat % 4096 - address.toNat % 4096 = (b - address).toNat := by
          have ha := address.isLt
          have hb := b.isLt
          unfold pageNumber at hsame
          rw [BitVec.toNat_sub]
          omega
        rw [if_pos hin, if_pos ⟨hle, hlt⟩, hdist]
        rfl
      · rw [if_neg hin, if_neg fun h => hin (hrange.mpr ⟨hsame, h⟩)]
        rfl
    · -- Another page: neither side writes.
      rw [if_neg hsame, if_neg fun h => hsame (hrange.mp h).1]
      cases pageAt memory b <;> rfl

/-- A store that succeeds, mapped or not, changes pages only. -/
theorem memoryStore_sameMarks {memory memory' : Memory} {address : U32} {n : Nat}
    {bytes : Nat → U8} (h : memoryStore memory address n bytes = .ok memory') :
    SameMarks memory memory' := by
  obtain ⟨page, -, h⟩ := bind_eq_ok.mp h
  dsimp only at h
  split_ifs at h
  cases h
  rfl

/-- Writing keeps every address mapped that was. -/
theorem Mapped.write {memory memory' : Memory} {data : U32 → Option U8} {address : U32}
    (h : flat memory' = (flat memory).write data) :
    Mapped memory' address ↔ Mapped memory address := by
  unfold Mapped
  rw [h]
  exact Store.isSome_write data (flat memory) address

/-- A store that succeeds was within a mapped page. -/
theorem memoryStore_eq_ok {memory memory' : Memory} {address : U32} {n : Nat} {bytes : Nat → U8}
    (h : memoryStore memory address n bytes = .ok memory') :
    Mapped memory address ∧ address.toNat % 4096 + n ≤ 4096 := by
  obtain ⟨page, hpage, h⟩ := bind_eq_ok.mp h
  dsimp only at h
  split_ifs at h with hfit
  rw [pageOffset_val] at hfit
  exact ⟨mapped_iff.mpr ⟨page, memoryFindPage_eq_ok.mp hpage⟩, hfit⟩

/-- Stores that succeed, one after the other. -/
def Stored : Memory → Memory → Prop :=
  Relation.ReflTransGen fun m m' => ∃ address n bytes, memoryStore m address n bytes = .ok m'

theorem Stored.store {memory memory' : Memory} {address : U32} {n : Nat} {bytes : Nat → U8}
    (h : memoryStore memory address n bytes = .ok memory') : Stored memory memory' :=
  .single ⟨address, n, bytes, h⟩

theorem Stored.sameMarks {memory memory' : Memory} (h : Stored memory memory') :
    SameMarks memory memory' := by
  induction h with
  | refl => exact .refl _
  | tail _ hstep ih =>
      obtain ⟨address, n, bytes, hstore⟩ := hstep
      exact ih.trans (memoryStore_sameMarks hstore)

/-- Stores leave the same addresses mapped. -/
theorem Stored.mapped {memory memory' : Memory} (h : Stored memory memory') (b : U32) :
    Mapped memory' b ↔ Mapped memory b := by
  induction h with
  | refl => rfl
  | @tail m₁ m₂ _ hstep ih =>
      obtain ⟨address, n, bytes, hstore⟩ := hstep
      obtain ⟨hmapped, hfit⟩ := memoryStore_eq_ok hstore
      obtain ⟨m, hm, hflat⟩ := memoryStore_eq bytes hmapped hfit
      cases hstore.symm.trans hm
      rw [Mapped.write hflat, ih]

/-! ### Allocation -/

/-- The page of an address meets the `size` bytes from `address` on. -/
def InPages (address size b : U32) : Prop :=
  pageNumber address ≤ pageNumber b ∧ pageNumber b ≤ pageNumber (address + size - 1)

/-- The last address of a range that ends by `2 ^ 32`. -/
theorem toNat_last {address size : U32} (hpos : 1 ≤ size.toNat)
    (hfit : address.toNat + size.toNat ≤ 2 ^ 32) :
    (address + size - 1).toNat = address.toNat + size.toNat - 1 := by
  rw [BitVec.toNat_sub, BitVec.toNat_add]
  show (2 ^ 32 - 1 + (address.toNat + size.toNat) % 2 ^ 32) % 2 ^ 32 = _
  omega

/-- The page of an address meets a range when it is the page of an address in the range. -/
theorem inPages_iff {address size : U32} (hpos : 1 ≤ size.toNat)
    (hfit : address.toNat + size.toNat ≤ 2 ^ 32) (b : U32) :
    InPages address size b ↔
      ∃ i < size.toNat, (address.toNat + i) / 4096 = b.toNat / 4096 := by
  unfold InPages pageNumber
  rw [toNat_last hpos hfit]
  constructor
  · intro hpages
    refine ⟨b.toNat / 4096 * 4096 - address.toNat, ?_, ?_⟩ <;> omega
  · rintro ⟨i, hi, hpage⟩
    omega

/-- A range lies in its pages. -/
theorem inPages_of_sub_lt {address size b : U32} (hfit : address.toNat + size.toNat ≤ 2 ^ 32)
    (hb : (b - address).toNat < size.toNat) : InPages address size b := by
  rw [inPages_iff (by omega) hfit]
  refine ⟨(b - address).toNat, hb, ?_⟩
  have hlt := b.isLt
  rw [BitVec.toNat_sub] at hb ⊢
  omega

/-- The entries of one table after the inner loop. -/
theorem foldl_allocateEntry (table : PageTable) (first last : Nat) (hlast : last < 1024)
    (i : Fin PE_COUNT) :
    ((first ≤ i.val ∧ i.val ≤ last) →
      (List.range' first (last + 1 - first)).foldl allocateEntry table i
        = some ((table i).getD fun _ => 0)) ∧
    (¬ (first ≤ i.val ∧ i.val ≤ last) →
      (List.range' first (last + 1 - first)).foldl allocateEntry table i = table i) := by
  have hmem : ∀ e, e ∈ List.range' first (last + 1 - first) ↔ first ≤ e ∧ e ≤ last := by
    intro e
    rw [List.mem_range'_1]
    omega
  have hmod : ∀ e, e ∈ List.range' first (last + 1 - first) → e % PE_COUNT = e := by
    intro e he
    have hlt := ((hmem e).mp he).2
    exact Nat.mod_eq_of_lt (by show e < 1024; omega)
  -- One round allocates the entry it names if that is empty, and touches no other.
  obtain ⟨hsome, hnone⟩ := foldl_pointwise (f := allocateEntry) (fun (t : PageTable) i => t i)
    (fun e i => i.val = e) (fun o : Option Page => some (o.getD fun _ => 0)) (fun _ => rfl)
    (List.range' first (last + 1 - first)) i
    (fun e he t hP => by
      show (if i.val = e % PE_COUNT then _ else _) = _
      rw [hmod e he, if_pos hP])
    (fun e he t hP => by
      show (if i.val = e % PE_COUNT then _ else _) = _
      rw [hmod e he, if_neg hP]) table
  constructor
  · intro h
    exact hsome ⟨i.val, (hmem _).mpr h, rfl⟩
  · intro h
    exact hnone fun e he hP => h (hP ▸ (hmem e).mp he)

/-- The entries of table `t` in the range. -/
def InTable (address last : U32) (head tail t : Nat) (b : U32) : Prop :=
  (ptIdx b).val = t ∧ (t = head → (peIdx address).val ≤ (peIdx b).val) ∧
    (t = tail → (peIdx b).val ≤ (peIdx last).val)

/-- The page of an address, in a table that may be new. -/
theorem pageAt_eq_getD (memory : Memory) (b : U32) :
    pageAt memory b = ((memory.pageTables (ptIdx b)).getD fun _ => none) (peIdx b) := by
  unfold pageAt
  cases memory.pageTables (ptIdx b) <;> rfl

/-- The page of an address after a round of the outer loop: an entry after the inner loop when
its table is the one of the round. -/
theorem pageAt_allocateTable_eq (address last : U32) (head tail : Nat) (memory : Memory) {t : Nat}
    (ht : t < 1024) (b : U32) :
    pageAt (allocateTable address last head tail memory t) b =
      if (ptIdx b).val = t then
        (List.range' (if t = head then (peIdx address).val else 0)
          ((if t = tail then (peIdx last).val else PE_MASK.toNat) + 1 -
            (if t = head then (peIdx address).val else 0))).foldl allocateEntry
          ((memory.pageTables (ptIdx b)).getD fun _ => none) (peIdx b)
      else pageAt memory b := by
  have hmod : t % PT_COUNT = t := Nat.mod_eq_of_lt ht
  unfold pageAt allocateTable
  dsimp only
  rw [hmod]
  by_cases hpt : (ptIdx b).val = t
  · rw [if_pos hpt, if_pos hpt, Option.bind_some]
  · rw [if_neg hpt, if_neg hpt]

/-- One round of the outer loop. -/
theorem pageAt_allocateTable (address last : U32) (head tail : Nat) (memory : Memory) {t : Nat}
    (ht : t < 1024) (b : U32) :
    (InTable address last head tail t b →
      pageAt (allocateTable address last head tail memory t) b
        = some ((pageAt memory b).getD fun _ => 0)) ∧
    (¬ InTable address last head tail t b →
      pageAt (allocateTable address last head tail memory t) b = pageAt memory b) := by
  have hb : (peIdx b).val < 1024 := (peIdx b).isLt
  have hlast : (peIdx last).val < 1024 := (peIdx last).isLt
  have hbound : (if t = tail then (peIdx last).val else PE_MASK.toNat) < 1024 := by
    split_ifs
    · exact hlast
    · decide
  obtain ⟨hin, hout⟩ := foldl_allocateEntry ((memory.pageTables (ptIdx b)).getD fun _ => none)
    (if t = head then (peIdx address).val else 0)
    (if t = tail then (peIdx last).val else PE_MASK.toNat) hbound (peIdx b)
  -- The bounds of the inner loop bind in the first and the last table only.
  have hcond : ((if t = head then (peIdx address).val else 0) ≤ (peIdx b).val ∧
      (peIdx b).val ≤ (if t = tail then (peIdx last).val else PE_MASK.toNat)) ↔
      (t = head → (peIdx address).val ≤ (peIdx b).val) ∧
        (t = tail → (peIdx b).val ≤ (peIdx last).val) := by
    have hmask : PE_MASK.toNat = 1023 := rfl
    split_ifs <;> omega
  rw [pageAt_allocateTable_eq address last head tail memory ht b]
  constructor
  · rintro ⟨hpt, hentries⟩
    rw [if_pos hpt, hin (hcond.mpr hentries), pageAt_eq_getD]
  · intro hnot
    by_cases hpt : (ptIdx b).val = t
    · rw [if_pos hpt, hout fun h => hnot ⟨hpt, hcond.mp h⟩, pageAt_eq_getD]
    · rw [if_neg hpt]

/-- The pages after `memory_allocate`. -/
theorem pageAt_memoryAllocate (memory : Memory) (address size b : U32) :
    (InPages address size b →
      pageAt (memoryAllocate memory address size) b
        = some ((pageAt memory b).getD fun _ => 0)) ∧
    (¬ InPages address size b →
      pageAt (memoryAllocate memory address size) b = pageAt memory b) := by
  let last := address + size - 1
  let head := (ptIdx address).val
  let tail := (ptIdx last).val
  have htail : tail < 1024 := (ptIdx last).isLt
  have hlt : ∀ t, t ∈ List.range' head (tail + 1 - head) → t < 1024 := by
    intro t ht
    rw [List.mem_range'_1] at ht
    omega
  obtain ⟨hsome, hnone⟩ := foldl_pointwise pageAt (fun t b => InTable address last head tail t b)
    (fun o : Option Page => some (o.getD fun _ => 0)) (fun _ => rfl)
    (List.range' head (tail + 1 - head)) b
    (fun t ht m => (pageAt_allocateTable address last head tail m (hlt t ht) b).1)
    (fun t ht m => (pageAt_allocateTable address last head tail m (hlt t ht) b).2) memory
  -- Pages in order are pairs of indices in lexicographic order.
  have hiff : (∃ t ∈ List.range' head (tail + 1 - head), InTable address last head tail t b) ↔
      InPages address size b := by
    have ha : (peIdx address).val < 1024 := (peIdx address).isLt
    have hb : (peIdx b).val < 1024 := (peIdx b).isLt
    have hl : (peIdx last).val < 1024 := (peIdx last).isLt
    unfold InPages
    rw [pageNumber_eq, pageNumber_eq, show address + size - 1 = last from rfl, pageNumber_eq]
    constructor
    · rintro ⟨t, ht, rfl, hhead, htail'⟩
      rw [List.mem_range'_1] at ht
      omega
    · intro h
      refine ⟨(ptIdx b).val, ?_, rfl, ?_, ?_⟩
      · rw [List.mem_range'_1]
        omega
      · intro hhead
        omega
      · intro htail'
        omega
  constructor
  · intro h
    exact hsome (hiff.mpr h)
  · intro h
    exact hnone fun t ht hP => h (hiff.mp ⟨t, ht, hP⟩)

/-- `memory_allocate` maps the pages that meet its range. -/
theorem flat_memoryAllocate (memory : Memory) (address size : U32) :
    flat (memoryAllocate memory address size) = (flat memory).allocate 0 (InPages address size) := by
  funext b
  obtain ⟨hin, hout⟩ := pageAt_memoryAllocate memory address size b
  simp only [flat, Store.allocate]
  by_cases h : InPages address size b
  · rw [if_pos h, hin h]
    cases pageAt memory b <;> rfl
  · rw [if_neg h, hout h]

theorem sameMarks_foldl (address last : U32) (head tail : Nat) (tables : List Nat)
    (memory : Memory) :
    SameMarks memory (tables.foldl (allocateTable address last head tail) memory) := by
  induction tables generalizing memory with
  | nil => exact .refl _
  | cons t tables ih =>
      have hone : SameMarks memory (allocateTable address last head tail memory t) := by
        unfold SameMarks allocateTable
        rfl
      exact hone.trans (ih _)

theorem sameMarks_memoryAllocate (memory : Memory) (address size : U32) :
    SameMarks memory (memoryAllocate memory address size) :=
  sameMarks_foldl _ _ _ _ _ _

end MipsEngines
