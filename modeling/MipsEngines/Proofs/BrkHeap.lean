import MipsEngines.Proofs.RegionRuns
import MipsEngines.Proofs.WordAccess

/-!
# `MipsEngines.Proofs.BrkHeap`: the contract of the brk heap

`brk_heap_end` is any byte address, and memory is mapped in pages. `Grows` says how a memory
may change between two states of the guest: the heap keeps its start and only grows, what it
grows by is mapped, and no address is unmapped. Each thing a guest does keeps to it
(`GuestStep.grows`), and it is transitive, so it holds from the loader to any later state
(`GuestRun.grows`).

Every run of an engine is such a run of the guest (`GuestRun.of_run`).
-/

set_option autoImplicit false

namespace MipsEngines

open Lib StepMachine

/-! ### What the guest does -/

/-- One thing the guest does: a `brk` or an `mmap2` that returns, a `munmap`, a store, or
anything that leaves the memory alone. -/
inductive GuestStep : Machine → Machine → Prop
  | call {s t : Machine} (c : HeapCall) (h : c.run s = .ok t) : GuestStep s t
  | munmap (s : Machine) : GuestStep s (mipsSyscallMunmap s)
  | store {s : Machine} {address : U32} {n : Nat} {bytes : Nat → U8} {memory : Memory}
      (h : memoryStore s.memory address n bytes = .ok memory) : GuestStep s (s.setMemory memory)
  | other {s t : Machine} (h : t.memory = s.memory) : GuestStep s t

/-- Any number of them, in any order. -/
def GuestRun : Machine → Machine → Prop := Relation.ReflTransGen GuestStep

/-- From `m` to `m'` the heap has grown, over mapped bytes, and nothing was unmapped. -/
structure Grows (m m' : Memory) : Prop where
  brkHeapStart : m'.brkHeapStart = m.brkHeapStart
  end_le : m.brkHeapEnd.toNat ≤ m'.brkHeapEnd.toNat
  grown : ∀ b : U32, m.brkHeapEnd.toNat ≤ b.toNat → b.toNat < m'.brkHeapEnd.toNat → Mapped m' b
  mapped : ∀ b, Mapped m b → Mapped m' b

namespace Grows

variable {m m₁ m₂ : Memory}

/-- The heap has not moved. -/
theorem of_sameMarks (h : SameMarks m m₁) (hmapped : ∀ b, Mapped m b → Mapped m₁ b) :
    Grows m m₁ where
  brkHeapStart := h.brkHeapStart
  end_le := by rw [h.brkHeapEnd]
  grown b hge hlt := by
    rw [h.brkHeapEnd] at hlt
    omega
  mapped := hmapped

theorem refl (m : Memory) : Grows m m := of_sameMarks (.refl m) fun _ hb => hb

theorem trans (h : Grows m m₁) (h' : Grows m₁ m₂) : Grows m m₂ where
  brkHeapStart := h'.brkHeapStart.trans h.brkHeapStart
  end_le := Nat.le_trans h.end_le h'.end_le
  grown b hge hlt := by
    -- The byte was added by the first part or by the second.
    by_cases hb : b.toNat < m₁.brkHeapEnd.toNat
    · exact h'.mapped b (h.grown b hge hb)
    · exact h'.grown b (by omega) hlt
  mapped b hb := h'.mapped b (h.mapped b hb)

theorem of_stored (h : Stored m m₁) : Grows m m₁ :=
  of_sameMarks h.sameMarks fun b hb => (h.mapped b).mpr hb

end Grows

/-! ### Calls -/

/-- Allocation unmaps nothing. -/
theorem Mapped.allocate {memory : Memory} {b : U32} (hb : Mapped memory b) (address size : U32) :
    Mapped (memoryAllocate memory address size) b := by
  unfold Mapped
  rw [flat_memoryAllocate, Store.isSome_allocate]
  exact .inr hb

/-- The end of the heap after `brk`, and the result of the call. -/
theorem mipsSyscallBrk_end (s : Machine) (x : U32) :
    (mipsSyscallBrk s x).memory.brkHeapEnd.toNat = max x.toNat s.memory.brkHeapEnd.toNat ∧
      (mipsSyscallBrk s x).reg MIPS_R_V0 = (mipsSyscallBrk s x).memory.brkHeapEnd := by
  refine ⟨?_, rfl⟩
  rw [(mipsSyscallBrk_marks s x).brkHeapEnd]
  show (if x > s.memory.brkHeapEnd then x else s.memory.brkHeapEnd).toNat = _
  split_ifs with hgrow
  · have hlt : s.memory.brkHeapEnd.toNat < x.toNat := hgrow
    omega
  · have hle : ¬ s.memory.brkHeapEnd.toNat < x.toNat := hgrow
    omega

/-- `brk` allocates from the end of the heap, in a page that may be in use, and keeps what is
there. -/
theorem flat_mipsSyscallBrk (s : Machine) (x : U32) {b : U32} {byte : U8}
    (hb : flat s.memory b = some byte) : flat (mipsSyscallBrk s x).memory b = some byte := by
  unfold mipsSyscallBrk
  rw [Machine.memory_setReg, Machine.memory_setMemory]
  split_ifs with hgrow
  · have hflat := congrFun
      (flat_memoryAllocate s.memory s.memory.brkHeapEnd (x - s.memory.brkHeapEnd)) b
    refine hflat.trans ?_
    unfold Store.allocate
    rw [hb]
    split_ifs <;> rfl
  · exact hb

/-- The bytes the heap grows by are in the pages that `brk` allocates. -/
theorem mapped_mipsSyscallBrk (s : Machine) (x : U32) {b : U32}
    (hge : s.memory.brkHeapEnd.toNat ≤ b.toNat) (hlt : b.toNat < x.toNat) :
    Mapped (mipsSyscallBrk s x).memory b := by
  have hx := x.isLt
  have hgrow : x > s.memory.brkHeapEnd := Nat.lt_of_le_of_lt hge hlt
  have hsize : (x - s.memory.brkHeapEnd).toNat = x.toNat - s.memory.brkHeapEnd.toNat :=
    BitVec.toNat_sub_of_le (Nat.le_of_lt hgrow)
  have hdist : (b - s.memory.brkHeapEnd).toNat = b.toNat - s.memory.brkHeapEnd.toNat :=
    BitVec.toNat_sub_of_le hge
  have hin : InPages s.memory.brkHeapEnd (x - s.memory.brkHeapEnd) b :=
    inPages_of_sub_lt (by omega) (by omega)
  have hmapped :
      Mapped (memoryAllocate s.memory s.memory.brkHeapEnd (x - s.memory.brkHeapEnd)) b := by
    unfold Mapped
    rw [flat_memoryAllocate, Store.isSome_allocate]
    exact .inl hin
  unfold mipsSyscallBrk
  rw [Machine.memory_setReg, Machine.memory_setMemory, if_pos hgrow]
  exact hmapped

theorem Grows.brk (s : Machine) (x : U32) : Grows s.memory (mipsSyscallBrk s x).memory where
  brkHeapStart := (mipsSyscallBrk_marks s x).brkHeapStart
  end_le := by
    rw [(mipsSyscallBrk_end s x).1]
    omega
  grown b hge hlt := by
    rw [(mipsSyscallBrk_end s x).1] at hlt
    exact mapped_mipsSyscallBrk s x hge (by omega)
  mapped b hb := by
    obtain ⟨byte, hbyte⟩ := Option.isSome_iff_exists.mp hb
    exact Option.isSome_iff_exists.mpr ⟨byte, flat_mipsSyscallBrk s x hbyte⟩

/-- `mmap2` allocates and clears: it moves its own mark, and no mark of the heap. -/
theorem Grows.mmap2 {s t : Machine} {len : U32} (h : mipsSyscallMmap2 s len = .ok t) :
    Grows s.memory t.memory := by
  obtain ⟨memory, hclear, hmemory, -⟩ := mipsSyscallMmap2_ok h
  -- The new region is allocated, then cleared by stores; `mmap_heap_end` is moved last.
  have hallocated : Grows s.memory
      (memoryAllocate s.memory s.memory.mmapHeapEnd (roundedLen len)) :=
    .of_sameMarks (sameMarks_memoryAllocate _ _ _) fun b hb => hb.allocate _ _
  have hcleared : Grows s.memory memory :=
    hallocated.trans (.of_stored (copyWriteLoop_stored hclear))
  rw [hmemory]
  exact ⟨hcleared.brkHeapStart, hcleared.end_le, hcleared.grown, hcleared.mapped⟩

theorem GuestStep.grows {s t : Machine} (h : GuestStep s t) : Grows s.memory t.memory := by
  cases h with
  | call c h =>
      cases c with
      | brk x =>
          cases h
          exact .brk s x
      | mmap2 len => exact .mmap2 h
  | munmap => exact .refl _
  | store h => exact .of_stored (.store h)
  | other h =>
      rw [h]
      exact .refl _

theorem GuestRun.grows {s t : Machine} (run : GuestRun s t) : Grows s.memory t.memory := by
  induction run with
  | refl => exact .refl _
  | tail _ step ih => exact ih.trans step.grows

/-! ### From the loader on -/

/-- The segments leave the heap empty. -/
theorem foldl_raisePhdr_empty (phdrs : List Elf32Phdr) {memory : Memory}
    (h : memory.brkHeapEnd = memory.brkHeapStart) :
    (phdrs.foldl raisePhdr memory).brkHeapEnd = (phdrs.foldl raisePhdr memory).brkHeapStart := by
  induction phdrs generalizing memory with
  | nil => exact h
  | cons phdr phdrs ih =>
      rw [List.foldl_cons]
      apply ih
      -- A segment raises both marks of the heap together, or neither.
      unfold raisePhdr raiseBrkHeap
      split_ifs
      · rfl
      · exact h
      · exact h

theorem loaderElf_heap {elf : List U8} {fresh : Nat → Nat → U8} {s₀ : Machine}
    (hload : loaderElf elf fresh .initial = .ok s₀) :
    s₀.memory.brkHeapEnd = s₀.memory.brkHeapStart := by
  obtain ⟨ehdr, hehdr, hrest⟩ := bind_eq_ok.mp hload
  obtain ⟨phdrs, hphdr, -⟩ := bind_eq_ok.mp hrest
  have hmarks := loaderElf_marks (bind_eq_ok.mpr ⟨ehdr, hehdr, hphdr⟩) hload
  rw [hmarks.brkHeapEnd, hmarks.brkHeapStart]
  exact foldl_raisePhdr_empty phdrs rfl

/-- All that the heap has is what it grew by. -/
theorem GuestRun.heap_mapped {elf : List U8} {fresh : Nat → Nat → U8} {s₀ s : Machine}
    (hload : loaderElf elf fresh .initial = .ok s₀) (run : GuestRun s₀ s) {b : U32}
    (hge : s.memory.brkHeapStart.toNat ≤ b.toNat) (hlt : b.toNat < s.memory.brkHeapEnd.toNat) :
    Mapped s.memory b := by
  rw [run.grows.brkHeapStart, ← loaderElf_heap hload] at hge
  exact run.grows.grown b hge hlt

/-- Wherever a guest gets from the loader on, its heap is mapped, `brk` returns the larger of
its argument and the end of the heap and changes no mapped byte, and whatever comes next, the
heap does not shrink and no address is unmapped. -/
theorem brk_heap_contract (elf : List U8) (fresh : Nat → Nat → U8) (s₀ s : Machine)
    (hload : loaderElf elf fresh .initial = .ok s₀) (run : GuestRun s₀ s) :
    (∀ b : U32, s.memory.brkHeapStart.toNat ≤ b.toNat → b.toNat < s.memory.brkHeapEnd.toNat →
      Mapped s.memory b) ∧
    (∀ x : U32,
      ((mipsSyscallBrk s x).reg MIPS_R_V0).toNat = max x.toNat s.memory.brkHeapEnd.toNat ∧
      (mipsSyscallBrk s x).memory.brkHeapEnd = (mipsSyscallBrk s x).reg MIPS_R_V0 ∧
      ∀ b byte, memoryReadU8 s.memory b = .ok byte →
        memoryReadU8 (mipsSyscallBrk s x).memory b = .ok byte) ∧
    ∀ t, GuestRun s t → s.memory.brkHeapEnd.toNat ≤ t.memory.brkHeapEnd.toNat ∧
      ∀ b, Mapped s.memory b → Mapped t.memory b := by
  refine ⟨fun b => run.heap_mapped hload, fun x => ?_, fun t hrun => ?_⟩
  · obtain ⟨hend, hv0⟩ := mipsSyscallBrk_end s x
    refine ⟨by rw [hv0, hend], hv0.symm, fun b byte hread => ?_⟩
    exact memoryReadU8_eq (flat_mipsSyscallBrk s x (memoryReadU8_eq_ok.mp hread))
  · exact ⟨hrun.grows.end_le, hrun.grows.mapped⟩

/-- On a loaded file: the heap after `brk (0x400fff)`, from inside a page in use. -/
theorem brk_heap_contract_exitElf :
    ∃ s₀ s, loaderElf exitElf (fun _ _ => 0) .initial = .ok s₀ ∧ GuestRun s₀ s ∧
      s.memory.brkHeapEnd = 0x400fff ∧ Mapped s.memory 0x400ffe ∧
      ((mipsSyscallBrk s 0x400100).reg MIPS_R_V0).toNat = 0x400fff := by
  obtain ⟨s₀, -, -, hload, -, -, -, hbrk⟩ := loaderElf_exitElf
  have hrun : GuestRun s₀ (mipsSyscallBrk s₀ 0x400fff) := .single (.call (.brk 0x400fff) rfl)
  have hend : (mipsSyscallBrk s₀ 0x400fff).memory.brkHeapEnd = 0x400fff := by
    apply BitVec.eq_of_toNat_eq
    rw [(mipsSyscallBrk_end s₀ 0x400fff).1, hbrk]
    rfl
  have hstart : (mipsSyscallBrk s₀ 0x400fff).memory.brkHeapStart = 0x400008 := by
    rw [(mipsSyscallBrk_marks s₀ 0x400fff).brkHeapStart, ← hbrk]
    exact (loaderElf_heap hload).symm
  obtain ⟨hmapped, hcall, -⟩ := brk_heap_contract exitElf (fun _ _ => 0) s₀ _ hload hrun
  refine ⟨s₀, _, hload, hrun, hend, hmapped _ ?_ ?_, ?_⟩
  · rw [hstart]
    decide
  · rw [hend]
    decide
  · rw [(hcall 0x400100).1, hend]
    rfl

/-! ### Runs of the engines -/

/-- Stores that end in the memory of another state. -/
theorem GuestRun.of_stored {s t : Machine} (h : Stored s.memory t.memory) : GuestRun s t := by
  have hstores : ∀ m, Stored s.memory m → GuestRun s (s.setMemory m) := by
    intro m hm
    induction hm with
    | refl => exact .refl
    | tail _ hstep ih =>
        obtain ⟨address, n, bytes, hstore⟩ := hstep
        exact ih.tail (.store hstore)
  exact (hstores t.memory h).tail (.other rfl)

/-- What a handler does. -/
theorem execute_guestRun {host : Host} {i : Instr} {cir : U32} {s t : Machine}
    (h : execute host i cir s = .ok t) : GuestRun s t := by
  by_cases hi : i = .syscall
  · subst hi
    have hcall : itpSyscallImpl host (s.reg MIPS_R_V0) (s.reg MIPS_R_A0) (s.reg MIPS_R_A1)
        (s.reg MIPS_R_A2) s = .ok t := h
    -- Two system calls allocate. The others store, or leave the memory alone.
    by_cases hbrk : s.reg MIPS_R_V0 = NR_brk
    · rw [hbrk, itpSyscallImpl_brk] at hcall
      exact .single (.call (.brk _) hcall)
    · by_cases hmmap : s.reg MIPS_R_V0 = NR_mmap2
      · rw [hmmap, itpSyscallImpl_mmap2] at hcall
        exact .single (.call (.mmap2 _) hcall)
      · exact .of_stored (itpSyscallImpl_stored hbrk hmmap hcall)
  · exact .of_stored (execute_stored hi h).2

/-- A step of an engine runs at most one handler. -/
theorem GuestRun.of_step {host : Host} {engine : Engine} {st st' : engine.State}
    (hstep : (engine.interpreter host).step st = .ok st') :
    GuestRun (engine.machine st) (engine.machine st') := by
  have hone := engine_step engine hstep
  cases hw : engine.executing st with
  | none =>
      rw [hw] at hone
      obtain ⟨p, hp⟩ := hone
      exact .single (.other (by rw [hp]; rfl))
  | some w =>
      rw [hw] at hone
      obtain ⟨t, p, ht, hp⟩ := hone
      exact (execute_guestRun ht).tail (.other (by rw [hp]; rfl))

theorem GuestRun.of_run {host : Host} {engine : Engine} {visited : List engine.State}
    {st st' : engine.State} (run : (engine.interpreter host).Run visited st st') :
    GuestRun (engine.machine st) (engine.machine st') := by
  induction run with
  | refl => exact .refl
  | head _ hstep _ ih => exact (GuestRun.of_step hstep).trans ih

/-- On every engine, the heap is mapped in every state after the loader. -/
theorem engine_heap_mapped {host : Host} (engine : Engine) {elf : List U8}
    {fresh : Nat → Nat → U8} {s₀ : Machine} (hload : loaderElf elf fresh .initial = .ok s₀)
    {visited : List engine.State} {st : engine.State}
    (run : (engine.interpreter host).Run visited (engine.start s₀) st) {b : U32}
    (hge : (engine.machine st).memory.brkHeapStart.toNat ≤ b.toNat)
    (hlt : b.toNat < (engine.machine st).memory.brkHeapEnd.toNat) :
    Mapped (engine.machine st).memory b := by
  have hmachine : engine.machine (engine.start s₀) = s₀ := by cases engine <;> rfl
  have hrun := GuestRun.of_run run
  rw [hmachine] at hrun
  exact hrun.heap_mapped hload hge hlt

end MipsEngines
