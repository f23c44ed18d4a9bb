import MipsEngines.Model.Mains
import MipsEngines.Proofs.LoadedImage

/-!
# `MipsEngines.Proofs.AddressSpace`: when the regions of the guest stay apart

The guest owns its segments, the brk heap, the stack and what `mmap2` has returned.
`brk` and `mmap2` move two marks, and only `mmap2` checks where its mark ends up: with
`USER_TOP`, above the stack, and in 32-bit arithmetic. `HeapCall.Fits` is what a call has
to meet for the regions to stay disjoint. `Layout` is the invariant of the marks.
-/

set_option autoImplicit false

namespace MipsEngines

open Lib

/-! ### Regions -/

/-- `size` bytes from `address` on, modulo `2 ^ 32`. -/
structure Region where
  address : U32
  size : Nat

namespace Region

def Contains (r : Region) (b : U32) : Prop := (b - r.address).toNat < r.size

def Disjoint (r q : Region) : Prop := ∀ b, ¬ (r.Contains b ∧ q.Contains b)

theorem Disjoint.symm {r q : Region} (h : r.Disjoint q) : q.Disjoint r :=
  fun b hb => h b hb.symm

/-- A region that does not wrap is an interval. -/
theorem contains_iff {r : Region} (h : r.address.toNat + r.size ≤ 2 ^ 32) (b : U32) :
    r.Contains b ↔ r.address.toNat ≤ b.toNat ∧ b.toNat < r.address.toNat + r.size := by
  have hb := b.isLt
  have ha := r.address.isLt
  unfold Contains
  rw [BitVec.toNat_sub]
  omega

/-- One region ends before the other begins. -/
theorem Disjoint.of_le {r q : Region} (h : r.address.toNat + r.size ≤ q.address.toNat)
    (hq : q.address.toNat + q.size ≤ 2 ^ 32) : r.Disjoint q := by
  have hlt := q.address.isLt
  intro b hb
  rw [contains_iff (by omega), contains_iff hq] at hb
  omega

end Region

/-- The loaded segments. -/
def segmentRegions (phdrs : List Elf32Phdr) : List Region :=
  (loads phdrs).map fun phdr => ⟨phdr.pVaddr, phdr.pMemsz.toNat⟩

/-- `[brk_heap_start, brk_heap_end)`. -/
def heapRegion (memory : Memory) : Region :=
  ⟨memory.brkHeapStart, memory.brkHeapEnd.toNat - memory.brkHeapStart.toNat⟩

/-- The initial stack, `[0x7fff0000, 0x80000000)`. -/
def stackRegion : Region := ⟨STACK_BOT, STACK_SIZE.toNat⟩

theorem stack_contains : stackRegion.Contains STACK_BOT := by
  unfold Region.Contains
  decide

/-- What the guest owns: `mmaps` are the regions that `mmap2` has returned. -/
def regions (phdrs : List Elf32Phdr) (mmaps : List Region) (memory : Memory) : List Region :=
  heapRegion memory :: stackRegion :: (segmentRegions phdrs ++ mmaps)

/-! ### Calls -/

/-- A call that moves a mark. -/
inductive HeapCall
  | brk (x : U32)
  | mmap2 (len : U32)

namespace HeapCall

def run (s : Machine) : HeapCall → Except Fault Machine
  | brk x => .ok (mipsSyscallBrk s x)
  | mmap2 len => mipsSyscallMmap2 s len

/-- The region a call has returned, in whole pages. -/
def returned (s' : Machine) : HeapCall → List Region
  | brk _ => []
  | mmap2 len => [⟨s'.reg MIPS_R_V0, (len.toNat + 4095) / 4096 * 4096⟩]

/-- The heap grows while it is below the `mmap2` area, or up to the stack as long as that
area is empty. An `mmap2` region ends below the stack, and starts above the heap. -/
def Fits (s : Machine) : HeapCall → Prop
  | brk x => x ≤ s.memory.brkHeapEnd ∨ x ≤ s.memory.mmapHeapStart ∨
      (s.memory.mmapHeapEnd = s.memory.mmapHeapStart ∧ x ≤ STACK_BOT)
  | mmap2 len => len = 0 ∨ (s.memory.brkHeapEnd ≤ s.memory.mmapHeapEnd ∧
      s.memory.mmapHeapEnd.toNat + len.toNat ≤ STACK_BOT.toNat)

end HeapCall

/-- A sequence of calls that return, each of which meets `P`, from `s₀` on. In between the
guest does anything that moves no mark. -/
inductive RegionRun (P : Machine → HeapCall → Prop) (s₀ : Machine) : List Region → Machine → Prop
  | start : RegionRun P s₀ [] s₀
  | call {mmaps : List Region} {s s' : Machine} (run : RegionRun P s₀ mmaps s) (c : HeapCall)
      (hc : P s c) (h : c.run s = .ok s') : RegionRun P s₀ (mmaps ++ c.returned s') s'
  | other {mmaps : List Region} {s s' : Machine} (run : RegionRun P s₀ mmaps s)
      (h : SameMarks s.memory s'.memory) : RegionRun P s₀ mmaps s'

/-! ### What a call does to the marks -/

theorem SameMarks.brkHeapStart {m m' : Memory} (h : SameMarks m m') :
    m'.brkHeapStart = m.brkHeapStart := by rw [h]

theorem SameMarks.brkHeapEnd {m m' : Memory} (h : SameMarks m m') :
    m'.brkHeapEnd = m.brkHeapEnd := by rw [h]

theorem SameMarks.mmapHeapStart {m m' : Memory} (h : SameMarks m m') :
    m'.mmapHeapStart = m.mmapHeapStart := by rw [h]

theorem SameMarks.mmapHeapEnd {m m' : Memory} (h : SameMarks m m') :
    m'.mmapHeapEnd = m.mmapHeapEnd := by rw [h]

/-- `brk` moves `brk_heap_end` only, and only up. -/
theorem mipsSyscallBrk_marks (s : Machine) (x : U32) :
    SameMarks { s.memory with
        brkHeapEnd := if x > s.memory.brkHeapEnd then x else s.memory.brkHeapEnd }
      (mipsSyscallBrk s x).memory := by
  unfold mipsSyscallBrk
  rw [Machine.memory_setReg, Machine.memory_setMemory]
  split_ifs with hgrow
  · have hmarks := sameMarks_memoryAllocate s.memory s.memory.brkHeapEnd (x - s.memory.brkHeapEnd)
    unfold SameMarks at hmarks ⊢
    rw [hmarks]
  · exact .refl _

/-- The length of a region, rounded up to whole pages in 32 bits. -/
def roundedLen (len : U32) : U32 := (len + 0xfff) &&& ~~~0xfff

theorem toNat_roundedLen (len : U32) :
    (roundedLen len).toNat = (len.toNat + 4095) % 2 ^ 32 / 4096 * 4096 := by
  rw [roundedLen, toNat_and_not_mask _ _ 12 rfl, BitVec.toNat_add]
  rfl

/-- Nothing wraps for a region that ends below `2 ^ 32`. -/
theorem toNat_add_roundedLen {a len : U32}
    (h : a.toNat + (len.toNat + 4095) / 4096 * 4096 < 2 ^ 32) :
    (roundedLen len).toNat = (len.toNat + 4095) / 4096 * 4096 ∧
      (a + roundedLen len).toNat = a.toNat + (len.toNat + 4095) / 4096 * 4096 := by
  have hlen : (roundedLen len).toNat = (len.toNat + 4095) / 4096 * 4096 := by
    rw [toNat_roundedLen]
    omega
  refine ⟨hlen, ?_⟩
  rw [BitVec.toNat_add, hlen, Nat.mod_eq_of_lt h]

/-- What `mmap2` allocates and clears. -/
def clearRegion (memory : Memory) (len : U32) : Except Fault Memory :=
  memorySet (memoryAllocate memory memory.mmapHeapEnd (roundedLen len)) memory.mmapHeapEnd
    (roundedLen len) 0

/-- `mmap2` with the marks of the memory it starts from. -/
theorem mipsSyscallMmap2_eq (s : Machine) (len : U32) :
    mipsSyscallMmap2 s len = (do
      let _fd ← memoryReadU32 s.memory (s.reg MIPS_R_SP + 16)
      let _pgoff ← memoryReadU32 s.memory (s.reg MIPS_R_SP + 20)
      if s.memory.mmapHeapEnd + roundedLen len > USER_TOP then .error .abort
      else do
        let memory ← clearRegion s.memory len
        let memory := { memory with mmapHeapEnd := memory.mmapHeapEnd + roundedLen len }
        return ((s.setMemory memory).setReg MIPS_R_V0 s.memory.mmapHeapEnd).setReg MIPS_R_A3 0) := by
  have hclear : memorySet (memoryAllocate s.memory s.memory.mmapHeapEnd (roundedLen len))
      (memoryAllocate s.memory s.memory.mmapHeapEnd (roundedLen len)).mmapHeapEnd
      (roundedLen len) 0 = clearRegion s.memory len := by
    rw [(sameMarks_memoryAllocate _ _ _).mmapHeapEnd]
    rfl
  rw [← hclear]
  rfl

theorem clearRegion_marks {memory memory' : Memory} {len : U32}
    (h : clearRegion memory len = .ok memory') : SameMarks memory memory' :=
  (sameMarks_memoryAllocate _ _ _).trans (copyWriteLoop_sameMarks h)

/-- A region that does not pass `2 ^ 32` is cleared. -/
theorem clearRegion_eq {memory : Memory} {len : U32}
    (hfit : memory.mmapHeapEnd.toNat + (roundedLen len).toNat ≤ 2 ^ 32) :
    ∃ memory', clearRegion memory len = .ok memory' ∧
      flat memory' = ((flat memory).allocate 0 (InPages memory.mmapHeapEnd (roundedLen len))).write
        (rangeData memory.mmapHeapEnd (roundedLen len).toNat fun _ => 0) := by
  have hmapped := mappedRange_memoryAllocate memory hfit
  obtain ⟨memory', hset, hflat⟩ := memorySet_eq 0 hmapped
  refine ⟨memory', hset, ?_⟩
  rw [hflat, flat_memoryAllocate]
  rfl

/-- An `mmap2` that returns. -/
theorem mipsSyscallMmap2_ok {s s' : Machine} {len : U32} (h : mipsSyscallMmap2 s len = .ok s') :
    ∃ memory, clearRegion s.memory len = .ok memory ∧
      s'.memory = { memory with mmapHeapEnd := s.memory.mmapHeapEnd + roundedLen len } ∧
      s'.reg MIPS_R_V0 = s.memory.mmapHeapEnd := by
  rw [mipsSyscallMmap2_eq] at h
  obtain ⟨fd, -, h⟩ := bind_eq_ok.mp h
  obtain ⟨pgoff, -, h⟩ := bind_eq_ok.mp h
  split_ifs at h
  obtain ⟨memory, hclear, h⟩ := bind_eq_ok.mp h
  have hend := (clearRegion_marks hclear).mmapHeapEnd
  cases h
  refine ⟨memory, hclear, ?_, rfl⟩
  rw [← hend]
  rfl

/-- An `mmap2` whose stack arguments can be read, and that passes the check. -/
theorem mipsSyscallMmap2_returns {s : Machine} (len : U32) {fd pgoff : U32}
    (hfd : memoryReadU32 s.memory (s.reg MIPS_R_SP + 16) = .ok fd)
    (hpgoff : memoryReadU32 s.memory (s.reg MIPS_R_SP + 20) = .ok pgoff)
    (hcheck : ¬ s.memory.mmapHeapEnd + roundedLen len > USER_TOP)
    (hfit : s.memory.mmapHeapEnd.toNat + (roundedLen len).toNat ≤ 2 ^ 32) :
    ∃ s', mipsSyscallMmap2 s len = .ok s' := by
  obtain ⟨memory, hclear, -⟩ := clearRegion_eq hfit
  rw [mipsSyscallMmap2_eq, hfd, ok_bind, hpgoff, ok_bind, if_neg hcheck, hclear, ok_bind]
  exact ⟨_, rfl⟩

/-- `mmap2` changes no mapped byte outside the region it clears. -/
theorem mipsSyscallMmap2_flat {s s' : Machine} {len : U32}
    (h : mipsSyscallMmap2 s len = .ok s')
    (hfit : s.memory.mmapHeapEnd.toNat + (roundedLen len).toNat ≤ 2 ^ 32) {b : U32} {byte : U8}
    (hb : ¬ (b - s.memory.mmapHeapEnd).toNat < (roundedLen len).toNat)
    (hbyte : flat s.memory b = some byte) : flat s'.memory b = some byte := by
  obtain ⟨memory, hclear, hmemory, -⟩ := mipsSyscallMmap2_ok h
  obtain ⟨memory', hclear', hflat⟩ := clearRegion_eq hfit
  cases hclear.symm.trans hclear'
  have hsame : flat s'.memory = flat memory := by
    rw [hmemory]
    rfl
  rw [hsame, hflat]
  unfold Store.write Store.allocate rangeData
  rw [if_neg hb, hbyte]
  split_ifs <;> rfl

/-! ### The invariant -/

/-- Where the marks are: the segments end below the heap, the `mmap2` area begins at
`0x40000000` and ends below the stack, and the heap is below that area or the area is
empty. -/
structure Layout (phdrs : List Elf32Phdr) (mmaps : List Region) (memory : Memory) : Prop where
  segments : (segmentRegions phdrs).Pairwise Region.Disjoint
  top_le : ∀ phdr ∈ loads phdrs, phdr.top ≤ memory.brkHeapStart.toNat
  start_le : memory.brkHeapStart.toNat ≤ 0x40000000
  heap : memory.brkHeapStart.toNat ≤ memory.brkHeapEnd.toNat
  mmapHeapStart : memory.mmapHeapStart = 0x40000000
  mmap_ge : 0x40000000 ≤ memory.mmapHeapEnd.toNat
  mmap_le : memory.mmapHeapEnd.toNat ≤ 0x7fff0000
  aligned : memory.mmapHeapEnd.toNat % 4096 = 0
  apart : memory.brkHeapEnd.toNat ≤ 0x40000000 ∨
    (memory.mmapHeapEnd.toNat = 0x40000000 ∧ memory.brkHeapEnd.toNat ≤ 0x7fff0000)
  mmaps_in : ∀ r ∈ mmaps, 0x40000000 ≤ r.address.toNat ∧
    r.address.toNat + r.size ≤ memory.mmapHeapEnd.toNat
  mmaps_disjoint : mmaps.Pairwise Region.Disjoint
  mmaps_first : 0x40000000 < memory.mmapHeapEnd.toNat → ∃ r ∈ mmaps, r.Contains 0x40000000

section Layout

variable {phdrs : List Elf32Phdr} {mmaps : List Region} {s s' : Machine}

theorem mem_segmentRegions {r : Region} :
    r ∈ segmentRegions phdrs ↔ ∃ phdr ∈ loads phdrs, r = ⟨phdr.pVaddr, phdr.pMemsz.toNat⟩ := by
  simp [segmentRegions, eq_comm]

theorem Layout.segment_end {memory : Memory} (h : Layout phdrs mmaps memory) {r : Region}
    (hr : r ∈ segmentRegions phdrs) : r.address.toNat + r.size ≤ memory.brkHeapStart.toNat := by
  obtain ⟨phdr, hphdr, rfl⟩ := mem_segmentRegions.mp hr
  exact h.top_le phdr hphdr

/-- The marks keep the regions apart. -/
theorem Layout.disjoint {memory : Memory} (h : Layout phdrs mmaps memory) :
    (regions phdrs mmaps memory).Pairwise Region.Disjoint := by
  have hstart := h.start_le
  have hheap := h.heap
  have hmmap := h.mmap_le
  have hapart := h.apart
  have hstack : stackRegion.address.toNat = 0x7fff0000 := rfl
  have hsize : stackRegion.size = 0x10000 := rfl
  have hheap_start : (heapRegion memory).address.toNat = memory.brkHeapStart.toNat := rfl
  have hheap_size : (heapRegion memory).size
      = memory.brkHeapEnd.toNat - memory.brkHeapStart.toNat := rfl
  refine .cons ?_ (.cons ?_ (List.pairwise_append.mpr ⟨h.segments, h.mmaps_disjoint, ?_⟩))
  · -- The heap: below the stack, above the segments, below the `mmap2` area or that is empty.
    intro r hr
    rcases List.mem_cons.mp hr with rfl | hr
    · exact .of_le (by omega) (by omega)
    rcases List.mem_append.mp hr with hr | hr
    · have hend := h.segment_end hr
      exact (Region.Disjoint.of_le (by omega) (by omega)).symm
    · obtain ⟨hge, hle⟩ := h.mmaps_in r hr
      rcases hapart with hbelow | ⟨hempty, -⟩
      · exact .of_le (by omega) (by omega)
      · intro b hb
        have hin : (b - r.address).toNat < r.size := hb.2
        omega
  · intro r hr
    rcases List.mem_append.mp hr with hr | hr
    · have hend := h.segment_end hr
      exact (Region.Disjoint.of_le (by omega) (by omega)).symm
    · obtain ⟨hge, hle⟩ := h.mmaps_in r hr
      exact (Region.Disjoint.of_le (by omega) (by omega)).symm
  · intro p hp q hq
    have hend := h.segment_end hp
    obtain ⟨hge, hle⟩ := h.mmaps_in q hq
    exact .of_le (by omega) (by omega)

theorem Layout.of_sameMarks {memory memory' : Memory} (h : Layout phdrs mmaps memory)
    (hmarks : SameMarks memory memory') : Layout phdrs mmaps memory' := by
  rw [hmarks]
  exact ⟨h.segments, h.top_le, h.start_le, h.heap, h.mmapHeapStart, h.mmap_ge, h.mmap_le,
    h.aligned, h.apart, h.mmaps_in, h.mmaps_disjoint, h.mmaps_first⟩

/-- A `brk` that fits keeps the invariant. -/
theorem Layout.brk (h : Layout phdrs mmaps s.memory) {x : U32}
    (hfits : HeapCall.Fits s (.brk x)) : Layout phdrs mmaps (mipsSyscallBrk s x).memory := by
  refine Layout.of_sameMarks ?_ (mipsSyscallBrk_marks s x)
  have hheap := h.heap
  have hstart : s.memory.mmapHeapStart.toNat = 0x40000000 := by rw [h.mmapHeapStart]; rfl
  by_cases hgrow : x > s.memory.brkHeapEnd
  · rw [if_pos hgrow]
    have hgrow' : s.memory.brkHeapEnd.toNat < x.toNat := hgrow
    have hx : x.toNat ≤ 0x40000000 ∨
        (s.memory.mmapHeapEnd.toNat = 0x40000000 ∧ x.toNat ≤ 0x7fff0000) := by
      rcases hfits with hle | hle | ⟨hempty, hle⟩
      · have hle' : x.toNat ≤ s.memory.brkHeapEnd.toNat := hle
        omega
      · have hle' : x.toNat ≤ s.memory.mmapHeapStart.toNat := hle
        exact .inl (by omega)
      · have hle' : x.toNat ≤ 0x7fff0000 := hle
        exact .inr ⟨by rw [hempty, hstart], hle'⟩
    exact ⟨h.segments, h.top_le, h.start_le, by show s.memory.brkHeapStart.toNat ≤ x.toNat; omega, h.mmapHeapStart,
      h.mmap_ge, h.mmap_le, h.aligned, hx, h.mmaps_in, h.mmaps_disjoint, h.mmaps_first⟩
  · rw [if_neg hgrow]
    exact h

/-- A `brk` that grows the heap takes in every address from `0x40000000` up to its end. -/
theorem Layout.contains_brk (h : Layout phdrs mmaps s.memory) {x b : U32}
    (hgrow : s.memory.brkHeapEnd.toNat < x.toNat) (hge : 0x40000000 ≤ b.toNat)
    (hlt : b.toNat < x.toNat) : (heapRegion (mipsSyscallBrk s x).memory).Contains b := by
  have hmarks := mipsSyscallBrk_marks s x
  have haddress : (heapRegion (mipsSyscallBrk s x).memory).address = s.memory.brkHeapStart :=
    hmarks.brkHeapStart
  have hend : (mipsSyscallBrk s x).memory.brkHeapEnd = x := by
    rw [hmarks.brkHeapEnd]
    exact if_pos hgrow
  have hsize : (heapRegion (mipsSyscallBrk s x).memory).size
      = x.toNat - s.memory.brkHeapStart.toNat := by
    show (mipsSyscallBrk s x).memory.brkHeapEnd.toNat
      - (mipsSyscallBrk s x).memory.brkHeapStart.toNat = _
    rw [hend, hmarks.brkHeapStart]
  have hxlt := x.isLt
  have hstart_le := h.start_le
  rw [Region.contains_iff (by rw [haddress, hsize]; omega), haddress, hsize]
  omega

/-- A `brk` that does not fit runs into the stack or into the `mmap2` area. -/
theorem Layout.not_disjoint_brk (h : Layout phdrs mmaps s.memory) {x : U32}
    (hfits : ¬ HeapCall.Fits s (.brk x)) :
    ¬ (regions phdrs mmaps (mipsSyscallBrk s x).memory).Pairwise Region.Disjoint := by
  intro hdisjoint
  have hx : ¬ x.toNat ≤ s.memory.brkHeapEnd.toNat ∧ ¬ x.toNat ≤ s.memory.mmapHeapStart.toNat ∧
      ¬ (s.memory.mmapHeapEnd = s.memory.mmapHeapStart ∧ x.toNat ≤ 0x7fff0000) := by
    unfold HeapCall.Fits at hfits
    rw [not_or, not_or] at hfits
    exact hfits
  obtain ⟨hgrow, habove, hstop⟩ := hx
  rw [h.mmapHeapStart] at habove hstop
  have habove' : ¬ x.toNat ≤ 0x40000000 := habove
  have hheap : ∀ b : U32, 0x40000000 ≤ b.toNat → b.toNat < x.toNat →
      (heapRegion (mipsSyscallBrk s x).memory).Contains b :=
    fun b hge hlt => h.contains_brk (Nat.not_le.mp hgrow) hge hlt
  obtain ⟨hheap_apart, -⟩ := List.pairwise_cons.mp hdisjoint
  -- The heap runs into the stack, or into the first region of the area.
  by_cases hempty : s.memory.mmapHeapEnd = 0x40000000
  · have hlt : ¬ x.toNat ≤ 0x7fff0000 := fun hle => hstop ⟨hempty, hle⟩
    exact hheap_apart stackRegion List.mem_cons_self STACK_BOT
      ⟨hheap STACK_BOT (by decide) (by show 0x7fff0000 < x.toNat; omega), stack_contains⟩
  · have hge := h.mmap_ge
    have hne : s.memory.mmapHeapEnd.toNat ≠ 0x40000000 :=
      fun heq => hempty (BitVec.eq_of_toNat_eq heq)
    obtain ⟨r, hr, hfirst⟩ := h.mmaps_first (by omega)
    refine hheap_apart r ?_ 0x40000000 ⟨hheap _ (by decide) ?_, hfirst⟩
    · exact List.mem_cons_of_mem _ (List.mem_append_right _ hr)
    · show 0x40000000 < x.toNat
      omega

/-- What an `mmap2` that returns does to the marks. -/
theorem mipsSyscallMmap2_marks {len : U32} (h : mipsSyscallMmap2 s len = .ok s') :
    SameMarks { s.memory with mmapHeapEnd := s.memory.mmapHeapEnd + roundedLen len } s'.memory := by
  obtain ⟨memory, hclear, hmemory, -⟩ := mipsSyscallMmap2_ok h
  have hmarks := clearRegion_marks hclear
  unfold SameMarks at *
  rw [hmemory, hmarks]

/-- The region an `mmap2` returns starts at the mark. -/
theorem returned_mmap2 {len : U32} (h : mipsSyscallMmap2 s len = .ok s') :
    (HeapCall.mmap2 len).returned s'
      = [⟨s.memory.mmapHeapEnd, (len.toNat + 4095) / 4096 * 4096⟩] := by
  obtain ⟨memory, -, -, hv0⟩ := mipsSyscallMmap2_ok h
  show [(⟨s'.reg MIPS_R_V0, _⟩ : Region)] = _
  rw [hv0]

/-- A length that fits is rounded up without overflow, and ends below the stack. -/
theorem Layout.roundedLen (h : Layout phdrs mmaps s.memory) {len : U32}
    (hfits : HeapCall.Fits s (.mmap2 len)) :
    (MipsEngines.roundedLen len).toNat = (len.toNat + 4095) / 4096 * 4096 ∧
      s.memory.mmapHeapEnd.toNat + (len.toNat + 4095) / 4096 * 4096 ≤ 0x7fff0000 := by
  have hle := h.mmap_le
  have haligned := h.aligned
  have hstack : s.memory.mmapHeapEnd.toNat + (len.toNat + 4095) / 4096 * 4096 ≤ 0x7fff0000 := by
    rcases hfits with hzero | ⟨-, hfit⟩
    · rw [hzero]
      exact hle
    · have hfit' : s.memory.mmapHeapEnd.toNat + len.toNat ≤ 0x7fff0000 := hfit
      omega
  exact ⟨(toNat_add_roundedLen (Nat.lt_of_le_of_lt hstack (by decide))).1, hstack⟩

/-- An `mmap2` that fits keeps the invariant. -/
theorem Layout.mmap2 (h : Layout phdrs mmaps s.memory) {len : U32}
    (hfits : HeapCall.Fits s (.mmap2 len)) (hok : mipsSyscallMmap2 s len = .ok s') :
    Layout phdrs (mmaps ++ (HeapCall.mmap2 len).returned s') s'.memory := by
  obtain ⟨-, hstack⟩ := h.roundedLen hfits
  have hge := h.mmap_ge
  have haligned := h.aligned
  have hend : (s.memory.mmapHeapEnd + MipsEngines.roundedLen len).toNat
      = s.memory.mmapHeapEnd.toNat + (len.toNat + 4095) / 4096 * 4096 :=
    (toNat_add_roundedLen (Nat.lt_of_le_of_lt hstack (by decide))).2
  rw [returned_mmap2 hok]
  refine Layout.of_sameMarks ?_ (mipsSyscallMmap2_marks hok)
  constructor
  case segments => exact h.segments
  case top_le => exact h.top_le
  case start_le => exact h.start_le
  case heap => exact h.heap
  case mmapHeapStart => exact h.mmapHeapStart
  case mmap_ge =>
    show 0x40000000 ≤ (_ + _ : U32).toNat
    omega
  case mmap_le =>
    show (_ + _ : U32).toNat ≤ 0x7fff0000
    omega
  case aligned =>
    show (_ + _ : U32).toNat % 4096 = 0
    omega
  case apart =>
    -- A region with a byte fits only when the heap is below the area.
    show _ ∨ ((_ + _ : U32).toNat = 0x40000000 ∧ _)
    rcases hfits with hzero | ⟨hbelow, -⟩
    · rw [hend, hzero]
      exact h.apart
    · have hbelow' : s.memory.brkHeapEnd.toNat ≤ s.memory.mmapHeapEnd.toNat := hbelow
      have hapart := h.apart
      show s.memory.brkHeapEnd.toNat ≤ _ ∨ _
      omega
  case mmaps_in =>
    intro r hr
    show _ ∧ _ ≤ (_ + _ : U32).toNat
    rcases List.mem_append.mp hr with hr | hr
    · obtain ⟨hlow, hhigh⟩ := h.mmaps_in r hr
      exact ⟨hlow, by omega⟩
    · rw [List.mem_singleton.mp hr]
      exact ⟨hge, Nat.le_of_eq hend.symm⟩
  case mmaps_disjoint =>
    -- The older regions end at the mark, where the new one starts.
    refine List.pairwise_append.mpr ⟨h.mmaps_disjoint, List.pairwise_singleton _ _, ?_⟩
    intro r hr q hq
    obtain ⟨-, hhigh⟩ := h.mmaps_in r hr
    rw [List.mem_singleton.mp hq]
    exact .of_le hhigh (Nat.le_trans hstack (by decide))
  case mmaps_first =>
    intro hnew
    have hnew' : 0x40000000 < (s.memory.mmapHeapEnd + MipsEngines.roundedLen len).toNat := hnew
    by_cases hold : 0x40000000 < s.memory.mmapHeapEnd.toNat
    · obtain ⟨r, hr, hfirst⟩ := h.mmaps_first hold
      exact ⟨r, List.mem_append_left _ hr, hfirst⟩
    · -- The first region of the area.
      refine ⟨_, List.mem_append_right _ (List.mem_singleton.mpr rfl), ?_⟩
      rw [Region.contains_iff (Nat.le_trans hstack (by decide))]
      show s.memory.mmapHeapEnd.toNat ≤ 0x40000000 ∧
        0x40000000 < s.memory.mmapHeapEnd.toNat + (len.toNat + 4095) / 4096 * 4096
      omega

/-- An `mmap2` that does not fit and returns all the same runs into the heap or the stack. -/
theorem Layout.not_disjoint_mmap2 (h : Layout phdrs mmaps s.memory) {len : U32}
    (hfits : ¬ HeapCall.Fits s (.mmap2 len)) (hok : mipsSyscallMmap2 s len = .ok s') :
    ¬ (regions phdrs (mmaps ++ (HeapCall.mmap2 len).returned s') s'.memory).Pairwise
      Region.Disjoint := by
  intro hdisjoint
  rw [returned_mmap2 hok] at hdisjoint
  have hstart_le := h.start_le
  have hge := h.mmap_ge
  have hle := h.mmap_le
  have hmarks := mipsSyscallMmap2_marks hok
  unfold HeapCall.Fits at hfits
  rw [not_or] at hfits
  obtain ⟨hpos, hbad⟩ := hfits
  have hlen : len.toNat ≠ 0 := fun heq => hpos (BitVec.eq_of_toNat_eq heq)
  let returned : Region := ⟨s.memory.mmapHeapEnd, (len.toNat + 4095) / 4096 * 4096⟩
  have hmem : returned ∈ segmentRegions phdrs ++ (mmaps ++ [returned]) := by simp
  obtain ⟨hheap_apart, hrest⟩ := List.pairwise_cons.mp hdisjoint
  obtain ⟨hstack_apart, -⟩ := List.pairwise_cons.mp hrest
  by_cases hheap : s.memory.brkHeapEnd.toNat ≤ s.memory.mmapHeapEnd.toNat
  · -- It reaches the first byte of the stack.
    have hover : ¬ s.memory.mmapHeapEnd.toNat + len.toNat ≤ 0x7fff0000 := fun hfit => hbad ⟨hheap, hfit⟩
    refine hstack_apart returned hmem STACK_BOT ⟨stack_contains, ?_⟩
    show (STACK_BOT - s.memory.mmapHeapEnd).toNat < (len.toNat + 4095) / 4096 * 4096
    rw [BitVec.toNat_sub]
    show (2 ^ 32 - s.memory.mmapHeapEnd.toNat + 0x7fff0000) % 2 ^ 32 < _
    omega
  · -- It starts inside the heap.
    refine hheap_apart returned (List.mem_cons_of_mem _ hmem) s.memory.mmapHeapEnd ⟨?_, ?_⟩
    · have hlt := s.memory.brkHeapEnd.isLt
      show (s.memory.mmapHeapEnd - s'.memory.brkHeapStart).toNat
        < s'.memory.brkHeapEnd.toNat - s'.memory.brkHeapStart.toNat
      rw [hmarks.brkHeapStart, hmarks.brkHeapEnd, BitVec.toNat_sub]
      show (2 ^ 32 - s.memory.brkHeapStart.toNat + s.memory.mmapHeapEnd.toNat) % 2 ^ 32
        < s.memory.brkHeapEnd.toNat - s.memory.brkHeapStart.toNat
      omega
    · show (s.memory.mmapHeapEnd - s.memory.mmapHeapEnd).toNat < (len.toNat + 4095) / 4096 * 4096
      rw [BitVec.sub_self]
      show 0 < _
      omega

end Layout

end MipsEngines
