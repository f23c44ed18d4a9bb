import Mathlib.Data.List.Pairwise
import MipsEngines.Model.Loader
import MipsEngines.Proofs.BulkCopies

/-!
# `MipsEngines.Proofs.LoadedImage`: the image that `loader_load_segments` builds

Each loaded segment is two operations on the byte memory, an allocation and a write
(`loaderLoadSegment_eq`): the transfer buffer is copied whole, and what was not read from
the file is cleared after. The loop is then a run of the store, and since the segments
are disjoint the byte last written at an address is that of the one segment it lies in.
-/

set_option autoImplicit false

namespace MipsEngines

open Lib

/-! ### Segments -/

/-- The headers of loaded segments. -/
def loads (phdrs : List Elf32Phdr) : List Elf32Phdr :=
  phdrs.filter fun phdr => phdr.pType = PT_LOAD

namespace Elf32Phdr

/-- The end of the segment, `p_vaddr + p_memsz`. -/
def top (phdr : Elf32Phdr) : Nat := phdr.pVaddr.toNat + phdr.pMemsz.toNat

def Contains (phdr : Elf32Phdr) (b : U32) : Prop :=
  phdr.pVaddr.toNat ≤ b.toNat ∧ b.toNat < phdr.top

/-- The segment meets the 4096-byte page of `b`. -/
def MeetsPage (phdr : Elf32Phdr) (b : U32) : Prop :=
  ∃ i < phdr.pMemsz.toNat, (phdr.pVaddr.toNat + i) / 4096 = b.toNat / 4096

/-- A segment that can be loaded from the file. -/
structure Fits (elf : List U8) (phdr : Elf32Phdr) : Prop where
  filesz_le : phdr.pFilesz.toNat ≤ phdr.pMemsz.toNat
  memsz_pos : 1 ≤ phdr.pMemsz.toNat
  top_lt : phdr.top < 2 ^ 32
  inFile : phdr.pOffset.toNat + phdr.pFilesz.toNat ≤ elf.length

end Elf32Phdr

/-- A program header table whose segments can be loaded and do not overlap. -/
structure WellFormed (elf : List U8) (phdrs : List Elf32Phdr) : Prop where
  fits : ∀ phdr ∈ loads phdrs, phdr.Fits elf
  disjoint : (loads phdrs).Pairwise fun p q => ∀ b, ¬ (p.Contains b ∧ q.Contains b)

/-- A memory with no page mapped and no brk heap. -/
structure FreshMemory (memory : Memory) : Prop where
  pageTables : ∀ t, memory.pageTables t = none
  brkHeapStart : memory.brkHeapStart = 0
  brkHeapEnd : memory.brkHeapEnd = 0

/-! ### One segment -/

/-- Byte `i` of a segment: from the file, then zero. -/
def segmentData (elf : List U8) (phdr : Elf32Phdr) (i : Nat) : U8 :=
  if i < phdr.pFilesz.toNat then elf.getD (phdr.pOffset.toNat + i) 0 else 0

/-- What a segment leaves at an address. -/
def segmentByte (elf : List U8) (phdr : Elf32Phdr) : U32 → Option U8 :=
  rangeData phdr.pVaddr phdr.pMemsz.toNat (segmentData elf phdr)

theorem raiseBrkHeap_pageTables (memory : Memory) (top : U32) :
    (raiseBrkHeap memory top).pageTables = memory.pageTables := by
  unfold raiseBrkHeap
  split_ifs <;> rfl

theorem flat_raiseBrkHeap (memory : Memory) (top : U32) :
    flat (raiseBrkHeap memory top) = flat memory := by
  funext b
  unfold flat pageAt
  rw [raiseBrkHeap_pageTables]

theorem length_fread {elf : List U8} {offset size : Nat} (h : offset + size ≤ elf.length) :
    (fread elf offset size).length = size := by
  unfold fread
  rw [List.length_take, List.length_drop]
  omega

theorem getD_fread {elf : List U8} {offset size i : Nat} (h : offset + size ≤ elf.length)
    (hi : i < size) (fresh : U8) : (fread elf offset size).getD i fresh = elf.getD (offset + i) 0 := by
  have hlt : offset + i < elf.length := by omega
  unfold fread
  simp [List.getD_eq_getElem?_getD, List.getElem?_drop, hi, List.getElem?_eq_getElem hlt]

section Segment

variable {elf : List U8} {phdr : Elf32Phdr}

theorem Elf32Phdr.Fits.sub_lt_iff (h : phdr.Fits elf) (b : U32) :
    (b - phdr.pVaddr).toNat < phdr.pMemsz.toNat ↔ phdr.Contains b := by
  have htop := h.top_lt
  have hb := b.isLt
  unfold Elf32Phdr.Contains
  unfold Elf32Phdr.top at *
  rw [BitVec.toNat_sub]
  omega

/-- The transfer buffer, written whole, and then the zeros. -/
theorem segmentByte_eq (h : phdr.Fits elf) (fresh : Nat → U8) :
    (fun b => (rangeData (phdr.pVaddr + phdr.pFilesz) (phdr.pMemsz - phdr.pFilesz).toNat
        (fun _ => 0) b).or
      (rangeData phdr.pVaddr phdr.pMemsz.toNat (fun i =>
        (fread elf phdr.pOffset.toNat phdr.pFilesz.toNat).getD i (fresh i)) b))
      = segmentByte elf phdr := by
  have hle := h.filesz_le
  have hlt := phdr.pMemsz.isLt
  have hrest : (phdr.pMemsz - phdr.pFilesz).toNat = phdr.pMemsz.toNat - phdr.pFilesz.toNat :=
    BitVec.toNat_sub_of_le hle
  funext b
  have hdist : (b - (phdr.pVaddr + phdr.pFilesz)).toNat
      = ((b - phdr.pVaddr).toNat + (2 ^ 32 - phdr.pFilesz.toNat)) % 2 ^ 32 := by
    rw [← BitVec.sub_sub, BitVec.toNat_sub]
    omega
  have hb := (b - phdr.pVaddr).isLt
  unfold segmentByte rangeData segmentData
  rw [hrest]
  by_cases hfile : (b - phdr.pVaddr).toNat < phdr.pFilesz.toNat
  · -- A byte of the file: the zeros begin after it.
    have hmem : (b - phdr.pVaddr).toNat < phdr.pMemsz.toNat := by omega
    rw [if_neg (by omega), if_pos hmem, if_pos hmem, if_pos hfile, Option.none_or]
    exact congrArg some (getD_fread h.inFile hfile _)
  · by_cases hmem : (b - phdr.pVaddr).toNat < phdr.pMemsz.toNat
    · rw [if_pos (by omega), if_pos hmem, if_pos hmem, if_neg hfile]
      rfl
    · rw [if_neg (by omega), if_neg hmem, if_neg hmem]
      rfl

/-- A segment that fits, in the terms of the memory: the file goes to the range that is allocated
for it, and what memory the file does not fill is cleared. -/
theorem loaderLoadSegment_of_fits (fresh : Nat → U8) (memory : Memory)
    (hload : phdr.pType = PT_LOAD) (h : phdr.Fits elf) :
    loaderLoadSegment elf fresh memory phdr = (do
      let copied ← memoryCopyWrite (memoryAllocate
        (raiseBrkHeap memory (phdr.pVaddr + phdr.pMemsz)) phdr.pVaddr phdr.pMemsz)
        phdr.pVaddr phdr.pMemsz
        fun i => (fread elf phdr.pOffset.toNat phdr.pFilesz.toNat).getD i (fresh i)
      if phdr.pMemsz > phdr.pFilesz then
        memorySet copied (phdr.pVaddr + phdr.pFilesz) (phdr.pMemsz - phdr.pFilesz) 0
      else .ok copied) := by
  have hle := h.filesz_le
  have hlength := length_fread h.inFile
  unfold loaderLoadSegment
  rw [if_neg (not_not.mpr hload)]
  dsimp only
  rw [hlength, if_neg (by omega), if_neg (by omega)]
  rfl

/-- A loaded segment is an allocation and a write. -/
theorem loaderLoadSegment_eq (fresh : Nat → U8) (memory : Memory) (hload : phdr.pType = PT_LOAD)
    (h : phdr.Fits elf) :
    ∃ memory', loaderLoadSegment elf fresh memory phdr = .ok memory' ∧
      flat memory' = ((flat memory).allocate 0 (InPages phdr.pVaddr phdr.pMemsz)).write
        (segmentByte elf phdr) := by
  have hle := h.filesz_le
  have hmapped := mappedRange_memoryAllocate (raiseBrkHeap memory (phdr.pVaddr + phdr.pMemsz))
    (Nat.le_of_lt h.top_lt)
  obtain ⟨copied, hcopy, hflat⟩ := memoryCopyWrite_eq (fun i =>
    (fread elf phdr.pOffset.toNat phdr.pFilesz.toNat).getD i (fresh i)) hmapped
  have hrest : (phdr.pMemsz - phdr.pFilesz).toNat = phdr.pMemsz.toNat - phdr.pFilesz.toNat :=
    BitVec.toNat_sub_of_le hle
  rw [loaderLoadSegment_of_fits fresh memory hload h, hcopy, ok_bind]
  rw [flat_memoryAllocate, flat_raiseBrkHeap] at hflat
  by_cases hgap : phdr.pMemsz > phdr.pFilesz
  · -- What the file does not fill is mapped as well, and the copy unmaps nothing.
    have hcleared : MappedRange copied (phdr.pVaddr + phdr.pFilesz)
        (phdr.pMemsz - phdr.pFilesz).toNat := by
      intro i hi
      have hbyte := hmapped (phdr.pFilesz.toNat + i) (by omega)
      rw [next_add]
      unfold Mapped at hbyte ⊢
      rw [hflat, Store.isSome_write]
      rwa [flat_memoryAllocate, flat_raiseBrkHeap] at hbyte
    obtain ⟨memory', hset, hflat'⟩ := memorySet_eq 0 hcleared
    refine ⟨memory', ?_, ?_⟩
    · rw [if_pos hgap, hset]
    · rw [hflat', hflat, Store.write_write, ← segmentByte_eq h fresh]
      rfl
  · have hall : phdr.pFilesz.toNat = phdr.pMemsz.toNat := by
      have hge : ¬ phdr.pFilesz.toNat < phdr.pMemsz.toNat := hgap
      omega
    refine ⟨copied, if_neg hgap, ?_⟩
    rw [hflat, ← segmentByte_eq h fresh]
    congr 1
    funext b
    rw [hrest, hall, Nat.sub_self, rangeData_zero, Option.none_or]

end Segment

/-! ### All segments -/

/-- The operations of a segment on the byte memory. -/
def segmentOps (elf : List U8) (phdr : Elf32Phdr) : List (StoreOp U32 U8) :=
  [.allocate (InPages phdr.pVaddr phdr.pMemsz), .write (segmentByte elf phdr)]

/-- The bytes that a segment writes are mapped by its allocation. -/
theorem StoreRun.segment {elf : List U8} {phdr : Elf32Phdr} {ops : List (StoreOp U32 U8)}
    {s : Store U32 U8} (run : StoreRun 0 ops s) (h : phdr.Fits elf) :
    StoreRun 0 (ops ++ segmentOps elf phdr)
      ((s.allocate 0 (InPages phdr.pVaddr phdr.pMemsz)).write (segmentByte elf phdr)) := by
  have hallocate := run.snoc (.allocate (InPages phdr.pVaddr phdr.pMemsz))
    fun a b hw => by cases hw
  have hwrite := hallocate.snoc (.write (segmentByte elf phdr)) fun a b hw => by
    have hin : (a - phdr.pVaddr).toNat < phdr.pMemsz.toNat := by
      by_contra hout
      have hnone : segmentByte elf phdr a = none := if_neg hout
      rw [show segmentByte elf phdr a = some b from hw] at hnone
      cases hnone
    show (s.allocate 0 (InPages phdr.pVaddr phdr.pMemsz) a).isSome
    rw [Store.isSome_allocate]
    exact .inl (inPages_of_sub_lt (Nat.le_of_lt h.top_lt) hin)
  rw [List.append_assoc] at hwrite
  exact hwrite

theorem loads_cons (phdr : Elf32Phdr) (phdrs : List Elf32Phdr) :
    loads (phdr :: phdrs) = if phdr.pType = PT_LOAD then phdr :: loads phdrs else loads phdrs := by
  unfold loads
  rw [List.filter_cons]
  simp

/-- The loop is a run of the store. -/
theorem loaderLoadSegments_eq {elf : List U8} (fresh : Nat → Nat → U8) (h : Nat)
    {phdrs : List Elf32Phdr} {memory : Memory} {ops : List (StoreOp U32 U8)}
    (hfits : ∀ phdr ∈ loads phdrs, phdr.Fits elf) (run : StoreRun 0 ops (flat memory)) :
    ∃ memory', loaderLoadSegments elf fresh h phdrs memory = .ok memory' ∧
      StoreRun 0 (ops ++ (loads phdrs).flatMap (segmentOps elf)) (flat memory') := by
  induction phdrs generalizing h memory ops with
  | nil =>
      refine ⟨memory, rfl, ?_⟩
      simpa [loads] using run
  | cons phdr phdrs ih =>
      rw [loads_cons] at hfits ⊢
      unfold loaderLoadSegments
      by_cases hload : phdr.pType = PT_LOAD
      · rw [if_pos hload] at hfits ⊢
        have hphdr := hfits phdr List.mem_cons_self
        obtain ⟨memory₁, hone, hflat⟩ := loaderLoadSegment_eq (fresh h) memory hload hphdr
        -- What this segment does is added to the operations so far.
        have run₁ := StoreRun.segment run hphdr
        rw [← hflat] at run₁
        obtain ⟨memory', hrest, run'⟩ := ih (h + 1)
          (fun p hp => hfits p (List.mem_cons_of_mem _ hp)) run₁
        refine ⟨memory', ?_, ?_⟩
        · rw [hone, ok_bind, hrest]
        · rwa [List.flatMap_cons, ← List.append_assoc]
      · rw [if_neg hload] at hfits ⊢
        have hone : loaderLoadSegment elf (fresh h) memory phdr = .ok memory := if_pos hload
        rw [hone, ok_bind]
        exact ih (h + 1) hfits run

/-! ### The brk heap -/

/-- What a header does to the heap. -/
def raisePhdr (memory : Memory) (phdr : Elf32Phdr) : Memory :=
  if phdr.pType = PT_LOAD then raiseBrkHeap memory (phdr.pVaddr + phdr.pMemsz) else memory

theorem SameMarks.raisePhdr {m m' : Memory} (h : SameMarks m m') (phdr : Elf32Phdr) :
    SameMarks (raisePhdr m phdr) (raisePhdr m' phdr) := by
  unfold SameMarks at h
  unfold MipsEngines.raisePhdr raiseBrkHeap
  rw [h]
  split_ifs <;> rfl

/-- A header that is loaded, with an end that does not wrap. -/
theorem raisePhdr_load {memory : Memory} {phdr : Elf32Phdr} (hload : phdr.pType = PT_LOAD)
    (htop : phdr.top < 2 ^ 32) (hheap : memory.brkHeapEnd = memory.brkHeapStart) :
    (raisePhdr memory phdr).brkHeapStart.toNat = max memory.brkHeapStart.toNat phdr.top ∧
      (raisePhdr memory phdr).brkHeapEnd = (raisePhdr memory phdr).brkHeapStart := by
  have hphdr : (phdr.pVaddr + phdr.pMemsz).toNat = phdr.top := by
    rw [BitVec.toNat_add]
    exact Nat.mod_eq_of_lt htop
  unfold raisePhdr raiseBrkHeap
  rw [if_pos hload]
  split_ifs with hgt
  · have hgt' : memory.brkHeapStart.toNat < (phdr.pVaddr + phdr.pMemsz).toNat := hgt
    refine ⟨?_, rfl⟩
    show (phdr.pVaddr + phdr.pMemsz).toNat = _
    omega
  · have hle : ¬ memory.brkHeapStart.toNat < (phdr.pVaddr + phdr.pMemsz).toNat := hgt
    exact ⟨by omega, hheap⟩

/-- The headers leave the marks of the `mmap2` area alone, also where their sums wrap. -/
theorem foldl_raisePhdr_mmap (phdrs : List Elf32Phdr) (memory : Memory) :
    (phdrs.foldl raisePhdr memory).mmapHeapStart = memory.mmapHeapStart ∧
      (phdrs.foldl raisePhdr memory).mmapHeapEnd = memory.mmapHeapEnd := by
  induction phdrs generalizing memory with
  | nil => exact ⟨rfl, rfl⟩
  | cons phdr phdrs ih =>
      have hone : (raisePhdr memory phdr).mmapHeapStart = memory.mmapHeapStart ∧
          (raisePhdr memory phdr).mmapHeapEnd = memory.mmapHeapEnd := by
        unfold raisePhdr raiseBrkHeap
        split_ifs <;> exact ⟨rfl, rfl⟩
      obtain ⟨hstart, hend⟩ := ih (raisePhdr memory phdr)
      exact ⟨hstart.trans hone.1, hend.trans hone.2⟩

/-- Whatever is loaded, the marks move as the headers say. -/
theorem loaderLoadSegment_marks {elf : List U8} {fresh : Nat → U8} {memory memory' : Memory}
    {phdr : Elf32Phdr} (h : loaderLoadSegment elf fresh memory phdr = .ok memory') :
    SameMarks (raisePhdr memory phdr) memory' := by
  unfold loaderLoadSegment at h
  unfold raisePhdr
  by_cases hload : phdr.pType = PT_LOAD
  · rw [if_neg (not_not.mpr hload)] at h
    rw [if_pos hload]
    dsimp only at h
    split_ifs at h with hover hshort hgap <;> obtain ⟨copied, hcopy, h⟩ := bind_eq_ok.mp h
    · have hcopied := (sameMarks_memoryAllocate _ _ _).trans (copyWriteLoop_sameMarks hcopy)
      exact hcopied.trans (copyWriteLoop_sameMarks h)
    · have hcopied := (sameMarks_memoryAllocate _ _ _).trans (copyWriteLoop_sameMarks hcopy)
      cases h
      exact hcopied
  · rw [if_pos hload] at h
    rw [if_neg hload]
    cases h
    exact .refl _

theorem loaderLoadSegments_marks {elf : List U8} {fresh : Nat → Nat → U8} {h : Nat}
    {phdrs : List Elf32Phdr} {memory₀ memory memory' : Memory} (hmarks : SameMarks memory₀ memory)
    (hload : loaderLoadSegments elf fresh h phdrs memory = .ok memory') :
    SameMarks (phdrs.foldl raisePhdr memory₀) memory' := by
  induction phdrs generalizing h memory₀ memory with
  | nil =>
      cases hload
      exact hmarks
  | cons phdr phdrs ih =>
      obtain ⟨memory₁, hone, hload⟩ := bind_eq_ok.mp hload
      exact ih ((hmarks.raisePhdr phdr).trans (loaderLoadSegment_marks hone)) hload

/-- The heap after the headers: it starts at the greatest end, and is empty. -/
theorem foldl_raisePhdr {phdrs : List Elf32Phdr} (memory : Memory)
    (hheap : memory.brkHeapEnd = memory.brkHeapStart)
    (htop : ∀ phdr ∈ loads phdrs, phdr.top < 2 ^ 32) :
    (phdrs.foldl raisePhdr memory).brkHeapStart.toNat
        = ((loads phdrs).map Elf32Phdr.top).foldl max memory.brkHeapStart.toNat ∧
      (phdrs.foldl raisePhdr memory).brkHeapEnd
        = (phdrs.foldl raisePhdr memory).brkHeapStart := by
  induction phdrs generalizing memory with
  | nil => exact ⟨rfl, hheap⟩
  | cons phdr phdrs ih =>
      rw [loads_cons] at htop ⊢
      rw [List.foldl_cons]
      by_cases hload : phdr.pType = PT_LOAD
      · rw [if_pos hload] at htop ⊢
        obtain ⟨hstart, hend⟩ := raisePhdr_load hload (htop phdr List.mem_cons_self) hheap
        rw [List.map_cons, List.foldl_cons, ← hstart]
        exact ih _ hend fun p hp => htop p (List.mem_cons_of_mem _ hp)
      · rw [if_neg hload] at htop ⊢
        have hsame : raisePhdr memory phdr = memory := if_neg hload
        rw [hsame]
        exact ih memory hheap htop

/-! ### The image -/

/-- An address lies in one segment at most. -/
theorem WellFormed.eq_of_contains {elf : List U8} {phdrs : List Elf32Phdr}
    (h : WellFormed elf phdrs) {p q : Elf32Phdr} (hp : p ∈ loads phdrs) (hq : q ∈ loads phdrs)
    {b : U32} (hpb : p.Contains b) (hqb : q.Contains b) : p = q := by
  by_contra hne
  have hsymm : Std.Symm fun p q : Elf32Phdr => ∀ b, ¬ (p.Contains b ∧ q.Contains b) :=
    ⟨fun _ _ hpq b hb => hpq b hb.symm⟩
  exact h.disjoint.forall hp hq hne b ⟨hpb, hqb⟩

theorem mem_segmentOps {elf : List U8} {phdrs : List Elf32Phdr} {op : StoreOp U32 U8} :
    op ∈ (loads phdrs).flatMap (segmentOps elf) ↔ ∃ phdr ∈ loads phdrs,
      op = .allocate (InPages phdr.pVaddr phdr.pMemsz) ∨ op = .write (segmentByte elf phdr) := by
  simp [segmentOps]

/-- The byte that the segments leave at an address of segment `phdr`. -/
theorem lastWritten_segment {elf : List U8} {phdrs : List Elf32Phdr} (h : WellFormed elf phdrs)
    {phdr : Elf32Phdr} (hphdr : phdr ∈ loads phdrs) {b : U32} (hb : phdr.Contains b) :
    lastWritten 0 ((loads phdrs).flatMap (segmentOps elf)) b
      = segmentData elf phdr (b - phdr.pVaddr).toNat := by
  have hbyte : segmentByte elf phdr b = some (segmentData elf phdr (b - phdr.pVaddr).toNat) :=
    if_pos (((h.fits phdr hphdr).sub_lt_iff b).mpr hb)
  apply lastWritten_of_agree
  · exact ⟨_, mem_segmentOps.mpr ⟨phdr, hphdr, .inr rfl⟩, hbyte⟩
  · intro op hop byte hw
    obtain ⟨q, hq, rfl | rfl⟩ := mem_segmentOps.mp hop
    · cases hw
    · have hqb : q.Contains b := by
        by_contra hout
        have hnone : segmentByte elf q b = none :=
          if_neg fun hlt => hout (((h.fits q hq).sub_lt_iff b).mp hlt)
        rw [show segmentByte elf q b = some byte from hw] at hnone
        cases hnone
      rw [h.eq_of_contains hphdr hq hb hqb] at hbyte ⊢
      exact Option.some.inj ((show segmentByte elf q b = some byte from hw).symm.trans hbyte)

section Image

variable {elf : List U8} {phdrs : List Elf32Phdr} {memory : Memory}

theorem FreshMemory.flat (h : FreshMemory memory) : flat memory = fun _ => none := by
  funext b
  simp [MipsEngines.flat, pageAt, h.pageTables]

/-- The pages of the segments are mapped, and no others. -/
theorem WellFormed.mapped_iff (h : WellFormed elf phdrs)
    (run : StoreRun 0 ((loads phdrs).flatMap (segmentOps elf)) (flat memory)) (b : U32) :
    Mapped memory b ↔ ∃ phdr ∈ loads phdrs, phdr.MeetsPage b := by
  refine (run.isSome_iff b).trans ?_
  constructor
  · rintro ⟨op, hop, hcovers⟩
    obtain ⟨phdr, hphdr, rfl | rfl⟩ := mem_segmentOps.mp hop
    · have hfits := h.fits phdr hphdr
      exact ⟨phdr, hphdr, (inPages_iff hfits.memsz_pos (Nat.le_of_lt hfits.top_lt) b).mp hcovers⟩
    · cases hcovers
  · rintro ⟨phdr, hphdr, hmeets⟩
    have hfits := h.fits phdr hphdr
    exact ⟨_, mem_segmentOps.mpr ⟨phdr, hphdr, .inl rfl⟩,
      (inPages_iff hfits.memsz_pos (Nat.le_of_lt hfits.top_lt) b).mpr hmeets⟩

/-- Byte `i` of a segment. -/
theorem WellFormed.flat_segment (h : WellFormed elf phdrs)
    (run : StoreRun 0 ((loads phdrs).flatMap (segmentOps elf)) (flat memory)) {phdr : Elf32Phdr}
    (hphdr : phdr ∈ loads phdrs) {i : Nat} (hi : i < phdr.pMemsz.toNat) :
    flat memory (phdr.pVaddr + BitVec.ofNat 32 i) = some (segmentData elf phdr i) := by
  have hfits := h.fits phdr hphdr
  have htop := hfits.top_lt
  unfold Elf32Phdr.top at htop
  have hdist : (phdr.pVaddr + BitVec.ofNat 32 i - phdr.pVaddr).toNat = i :=
    toNat_add_sub phdr.pVaddr (by omega)
  have hin : phdr.Contains (phdr.pVaddr + BitVec.ofNat 32 i) := by
    rw [← hfits.sub_lt_iff, hdist]
    exact hi
  have hpage : Mapped memory (phdr.pVaddr + BitVec.ofNat 32 i) := by
    refine (h.mapped_iff run _).mpr ⟨phdr, hphdr, i, hi, ?_⟩
    rw [BitVec.toNat_add, BitVec.toNat_ofNat]
    omega
  rw [run.eq_lastWritten hpage, lastWritten_segment h hphdr hin, hdist]

/-- A byte of the pages that is in no segment. -/
theorem WellFormed.flat_outside (h : WellFormed elf phdrs)
    (run : StoreRun 0 ((loads phdrs).flatMap (segmentOps elf)) (flat memory)) {b : U32}
    (hb : Mapped memory b) (hout : ∀ phdr ∈ loads phdrs, ¬ phdr.Contains b) :
    flat memory b = some 0 := by
  rw [run.eq_lastWritten hb]
  congr 1
  apply lastWritten_of_unwritten
  intro op hop
  obtain ⟨phdr, hphdr, rfl | rfl⟩ := mem_segmentOps.mp hop
  · rfl
  · exact if_neg fun hlt => hout phdr hphdr (((h.fits phdr hphdr).sub_lt_iff b).mp hlt)

end Image

/-- `loader_load_segments` builds the image that the headers describe. -/
theorem loader_load_segments_image (elf : List U8) (fresh : Nat → Nat → U8)
    (phdrs : List Elf32Phdr) (memory : Memory) (hfresh : FreshMemory memory)
    (hwf : WellFormed elf phdrs) :
    ∃ memory', loaderLoadSegments elf fresh 0 phdrs memory = .ok memory' ∧
      (∀ phdr ∈ loads phdrs, ∀ i, i < phdr.pFilesz.toNat →
        flat memory' (phdr.pVaddr + BitVec.ofNat 32 i) = elf[phdr.pOffset.toNat + i]?) ∧
      (∀ phdr ∈ loads phdrs, ∀ i, phdr.pFilesz.toNat ≤ i → i < phdr.pMemsz.toNat →
        flat memory' (phdr.pVaddr + BitVec.ofNat 32 i) = some 0) ∧
      (∀ b, Mapped memory' b → (∀ phdr ∈ loads phdrs, ¬ phdr.Contains b) →
        flat memory' b = some 0) ∧
      (∀ b, Mapped memory' b ↔ ∃ phdr ∈ loads phdrs, phdr.MeetsPage b) ∧
      memory'.brkHeapStart.toNat = ((loads phdrs).map Elf32Phdr.top).foldl max 0 ∧
      memory'.brkHeapEnd = memory'.brkHeapStart := by
  have hstart : StoreRun 0 [] (flat memory) := by
    rw [hfresh.flat]
    exact .nil
  -- The loader is a run of the byte store; what it leaves is read off the operations.
  obtain ⟨memory', hload, run⟩ := loaderLoadSegments_eq fresh 0 hwf.fits hstart
  rw [List.nil_append] at run
  have hmarks := loaderLoadSegments_marks (.refl memory) hload
  obtain ⟨hbrk, hend⟩ := foldl_raisePhdr memory
    (hfresh.brkHeapEnd.trans hfresh.brkHeapStart.symm) fun phdr hphdr => (hwf.fits phdr hphdr).top_lt
  unfold SameMarks at hmarks
  refine ⟨memory', hload, ?_, ?_, fun b hb hout => hwf.flat_outside run hb hout,
    hwf.mapped_iff run, ?_, ?_⟩
  · -- The bytes of the file.
    intro phdr hphdr i hi
    have hfits := hwf.fits phdr hphdr
    have hfile := hfits.inFile
    have hlt : phdr.pOffset.toNat + i < elf.length := by omega
    rw [hwf.flat_segment run hphdr (Nat.lt_of_lt_of_le hi hfits.filesz_le), segmentData, if_pos hi]
    simp [List.getD_eq_getElem?_getD, List.getElem?_eq_getElem hlt]
  · -- The zeros up to `p_memsz`.
    intro phdr hphdr i hle hi
    rw [hwf.flat_segment run hphdr hi, segmentData, if_neg (Nat.not_lt.mpr hle)]
  · rw [hmarks]
    refine hbrk.trans ?_
    rw [hfresh.brkHeapStart]
    rfl
  · rw [hmarks]
    exact hend

/-- A data segment before the text segment it shares a page with, and a header between them that
is not loaded. -/
abbrev samplePhdrs : List Elf32Phdr :=
  [⟨PT_LOAD, 4, 0x400ffe, 2, 6⟩, ⟨0, 0, 0x400000, 8, 8⟩, ⟨PT_LOAD, 0, 0x400ff0, 4, 4⟩]

abbrev sampleFile : List U8 := [0x11, 0x22, 0x33, 0x44, 0x55, 0x66, 0x77, 0x88]

/-- The transfer buffers held `0xcc`. -/
theorem loader_load_segments_image_sample :
    ∃ memory', loaderLoadSegments sampleFile (fun _ _ => 0xcc) 0 samplePhdrs
        (memoryCreate Memory.empty) = .ok memory' ∧
      flat memory' 0x400fff = some 0x66 ∧ flat memory' 0x401000 = some 0 ∧
      memory'.brkHeapStart = 0x401004 := by
  obtain ⟨memory', hload, hfile, hzero, -, -, hbrk, -⟩ :=
    loader_load_segments_image sampleFile (fun _ _ => 0xcc) samplePhdrs (memoryCreate Memory.empty)
      ⟨fun _ => rfl, rfl, rfl⟩ ⟨by
        intro phdr hphdr
        have hmem : phdr = ⟨PT_LOAD, 4, 0x400ffe, 2, 6⟩ ∨ phdr = ⟨PT_LOAD, 0, 0x400ff0, 4, 4⟩ := by
          simpa [loads] using hphdr
        rcases hmem with rfl | rfl <;> exact ⟨by decide, by decide, by decide, by decide⟩, by
        have hloads : loads samplePhdrs
            = [⟨PT_LOAD, 4, 0x400ffe, 2, 6⟩, ⟨PT_LOAD, 0, 0x400ff0, 4, 4⟩] := by decide
        rw [hloads]
        refine .cons ?_ (List.pairwise_singleton _ _)
        intro q hq b hb
        rw [List.mem_singleton.mp hq] at hb
        obtain ⟨⟨hlow, -⟩, -, hhigh⟩ := hb
        have hlow' : 0x400ffe ≤ b.toNat := hlow
        have hhigh' : b.toNat < 0x400ff0 + 4 := hhigh
        omega⟩
  have hdata : (⟨PT_LOAD, 4, 0x400ffe, 2, 6⟩ : Elf32Phdr) ∈ loads samplePhdrs := by decide
  refine ⟨memory', hload, hfile _ hdata 1 (by decide), hzero _ hdata 2 (by decide) (by decide), ?_⟩
  exact BitVec.eq_of_toNat_eq hbrk

end MipsEngines
