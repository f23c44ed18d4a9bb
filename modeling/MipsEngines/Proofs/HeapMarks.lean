import MipsEngines.Proofs.AddressSpace
import MipsEngines.Proofs.EveryEngine
import MipsEngines.Proofs.Frames

/-!
# `MipsEngines.Proofs.HeapMarks`: what moves the marks of the heaps

`brk_heap_start`, `brk_heap_end` and the two marks of the `mmap2` area are set by
`memory_create` and `loader_elf` (`loaderElf_marks`). From then on only `brk` and `mmap2`
calls move them, whatever else the guest does (`execute_marks`).
-/

set_option autoImplicit false

namespace MipsEngines

open Lib

/-! ### The loader -/

theorem loadGpLoop_memory {elf : List U8} {shdr rest : List Elf32Shdr} {s s' : Machine}
    (h : loadGpLoop elf shdr s rest = .ok s') : s'.memory = s.memory := by
  induction rest with
  | nil => cases h
  | cons symtabHdr rest ih =>
      unfold loadGpLoop at h
      split_ifs at h with htype
      · exact ih h
      · cases hstr : shdr[symtabHdr.shLink.toNat]? with
        | none => simp only [hstr] at h; cases h
        | some strtabHdr =>
            simp only [hstr] at h
            obtain ⟨⟨symbols, strings⟩, -, h⟩ := bind_eq_ok.mp h
            obtain ⟨found, -, h⟩ := bind_eq_ok.mp h
            cases found with
            | none => exact ih h
            | some value => cases h; rfl

theorem foldlM_pushU32_marks {words : List U32} {s s' : Machine}
    (h : words.foldlM pushU32 s = .ok s') : SameMarks s.memory s'.memory := by
  induction words generalizing s with
  | nil => cases h; exact .refl _
  | cons word words ih =>
      rw [List.foldlM_cons] at h
      obtain ⟨s₁, hpush, h⟩ := bind_eq_ok.mp h
      obtain ⟨memory, hstore, hpush⟩ := bind_eq_ok.mp hpush
      cases hpush
      exact (memoryStore_sameMarks hstore).trans (ih h)

theorem loaderLoadSp_marks {s s' : Machine} {ehdr : Elf32Ehdr}
    (h : loaderLoadSp s ehdr = .ok s') : SameMarks s.memory s'.memory := by
  obtain ⟨cleared, hset, h⟩ := bind_eq_ok.mp h
  obtain ⟨random, hrandom, h⟩ := bind_eq_ok.mp h
  obtain ⟨name, hname, h⟩ := bind_eq_ok.mp h
  -- Allocation, clearing, two strings and the pushes: none moves a mark.
  have hcleared := (sameMarks_memoryAllocate _ _ _).trans (copyWriteLoop_sameMarks hset)
  have hstrings := (copyWriteLoop_sameMarks hrandom).trans (copyWriteLoop_sameMarks hname)
  exact (hcleared.trans hstrings).trans (foldlM_pushU32_marks h)

/-- The marks after `loader_elf` are those of the program headers. -/
theorem loaderElf_marks {elf : List U8} {fresh : Nat → Nat → U8} {s s' : Machine}
    {phdrs : List Elf32Phdr} (hphdrs : programHeaders elf = .ok phdrs)
    (h : loaderElf elf fresh s = .ok s') :
    SameMarks (phdrs.foldl raisePhdr s.memory) s'.memory := by
  obtain ⟨ehdr, hehdr, h⟩ := bind_eq_ok.mp h
  obtain ⟨phdrs', hphdr, h⟩ := bind_eq_ok.mp h
  obtain ⟨shdr, -, h⟩ := bind_eq_ok.mp h
  obtain ⟨memory, hsegments, h⟩ := bind_eq_ok.mp h
  obtain ⟨s₁, hgp, h⟩ := bind_eq_ok.mp h
  -- The loader read the same headers.
  have hsame : phdrs' = phdrs := by
    have hread : programHeaders elf = .ok phdrs' := bind_eq_ok.mpr ⟨ehdr, hehdr, hphdr⟩
    exact Except.ok.inj (hread.symm.trans hphdrs)
  have hmemory : s₁.memory = memory := loadGpLoop_memory hgp
  rw [hsame] at hsegments
  rw [← hmemory] at hsegments
  exact (loaderLoadSegments_marks (.refl _) hsegments).trans (loaderLoadSp_marks h)

/-! ### Instructions -/

/-- The call that moves a mark, for the number in `V0`. -/
def heapCallOf (v0 a0 a1 : U32) : Option HeapCall :=
  if v0 = NR_brk then some (.brk a0) else if v0 = NR_mmap2 then some (.mmap2 a1) else none

/-- A system call moves a mark only as `brk` or `mmap2`. -/
def MovesAs (call : Option HeapCall) (s t : Machine) : Prop :=
  match call with
  | some c => c.run s = .ok t
  | none => SameMarks s.memory t.memory

theorem itpSyscallImpl_marks {host : Host} {v0 a0 a1 a2 : U32} {s t : Machine}
    (h : itpSyscallImpl host v0 a0 a1 a2 s = .ok t) : MovesAs (heapCallOf v0 a0 a1) s t := by
  unfold heapCallOf
  by_cases hbrk : v0 = NR_brk
  · rw [if_pos hbrk]
    rw [hbrk, itpSyscallImpl_brk] at h
    exact h
  · rw [if_neg hbrk]
    by_cases hmmap : v0 = NR_mmap2
    · rw [if_pos hmmap]
      rw [hmmap, itpSyscallImpl_mmap2] at h
      exact h
    · rw [if_neg hmmap]
      exact (itpSyscallImpl_stored hbrk hmmap h).sameMarks

/-- The call that moves a mark, for the instruction about to run. -/
def heapCall (i : Instr) (s : Machine) : Option HeapCall :=
  if i = .syscall then heapCallOf (s.reg MIPS_R_V0) (s.reg MIPS_R_A0) (s.reg MIPS_R_A1) else none

/-- An instruction moves a mark only as a `brk` or `mmap2` call. -/
theorem execute_marks {host : Host} {i : Instr} {cir : U32} {s t : Machine}
    (h : execute host i cir s = .ok t) : MovesAs (heapCall i s) s t := by
  unfold heapCall
  by_cases hi : i = .syscall
  · rw [if_pos hi]
    subst hi
    exact itpSyscallImpl_marks h
  · rw [if_neg hi]
    exact (execute_frame hi h).2

end MipsEngines
