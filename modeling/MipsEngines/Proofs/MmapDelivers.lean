import MipsEngines.Proofs.RegionRuns
import MipsEngines.Proofs.WordAccess

/-!
# `MipsEngines.Proofs.MmapDelivers`: what `mmap2` delivers

`mmap2` rounds the length up to whole pages, adds it to the end of the `mmap2` area and
compares the sum with `USER_TOP`. Both sums are 32-bit sums. As long as the end of the new
region is below `2 ^ 32` the check is right, and the region is delivered or the emulator
aborts. A sum that wraps passes the check.

`MmapMark` is the invariant of the end of the area, and `mmap2_delivers_iff` the result
for the runs of every engine: a call delivers or is refused exactly when its stack arguments
can be read and its end does not wrap.
-/

set_option autoImplicit false

namespace MipsEngines

open Lib StepMachine

/-- The words at `SP + 16` and `SP + 20` can be read. -/
def StackArgs (s : Machine) : Prop :=
  (∃ fd, memoryReadU32 s.memory (s.reg MIPS_R_SP + 16) = .ok fd) ∧
    ∃ pgoff, memoryReadU32 s.memory (s.reg MIPS_R_SP + 20) = .ok pgoff

/-- The end of the new region, in whole pages, is below `2 ^ 32`. -/
def MmapFits (s : Machine) (len : U32) : Prop :=
  s.memory.mmapHeapEnd.toNat + (len.toNat + 4095) / 4096 * 4096 < 2 ^ 32

instance (s : Machine) (len : U32) : Decidable (MmapFits s len) :=
  inferInstanceAs (Decidable (_ < _))

/-- The call aborts, or `V0` is the start of whole pages below `USER_TOP` that read as 0, and
the area ends where they do. -/
def MmapDelivers (s : Machine) (len : U32) : Prop :=
  mipsSyscallMmap2 s len = .error .abort ∨
    ∃ t, mipsSyscallMmap2 s len = .ok t ∧ (t.reg MIPS_R_V0).toNat % 4096 = 0 ∧
      (t.reg MIPS_R_V0).toNat + (len.toNat + 4095) / 4096 * 4096 ≤ USER_TOP.toNat ∧
      (∀ b : U32, (t.reg MIPS_R_V0).toNat ≤ b.toNat →
        b.toNat < (t.reg MIPS_R_V0).toNat + (len.toNat + 4095) / 4096 * 4096 →
        memoryReadU8 t.memory b = .ok 0) ∧
      t.memory.mmapHeapEnd.toNat
        = (t.reg MIPS_R_V0).toNat + (len.toNat + 4095) / 4096 * 4096

/-- Where the `mmap2` area ends. -/
structure MmapMark (memory : Memory) : Prop where
  ge : 0x40000000 ≤ memory.mmapHeapEnd.toNat
  le : memory.mmapHeapEnd.toNat ≤ USER_TOP.toNat
  aligned : memory.mmapHeapEnd.toNat % 4096 = 0

/-! ### Aborts

The memory operations fail at a `NULL` or past a page, and never with `abort()`. -/

theorem memoryFindPage_ne_abort (memory : Memory) (a : U32) :
    memoryFindPage memory a ≠ .error .abort := by
  unfold memoryFindPage
  split
  · simp
  · split <;> simp

theorem memoryReadU32_ne_abort (memory : Memory) (a : U32) :
    memoryReadU32 memory a ≠ .error .abort := by
  intro h
  rcases bind_eq_error.mp h with hpage | ⟨page, -, hread⟩
  · exact memoryFindPage_ne_abort memory a hpage
  · dsimp only at hread
    split_ifs at hread
    · cases hread
    · cases hread

theorem memoryStore_ne_abort (memory : Memory) (a : U32) (amount : Nat) (bytes : Nat → U8) :
    memoryStore memory a amount bytes ≠ .error .abort := by
  intro h
  rcases bind_eq_error.mp h with hpage | ⟨page, -, hstore⟩
  · exact memoryFindPage_ne_abort memory a hpage
  · dsimp only at hstore
    split_ifs at hstore
    · cases hstore
    · cases hstore

theorem copyWriteLoop_ne_abort (fuel : Nat) (memory : Memory) (address size : U32)
    (buffer : Nat → U8) : copyWriteLoop fuel memory address size buffer ≠ .error .abort := by
  induction fuel generalizing memory address size buffer with
  | zero => simp [copyWriteLoop]
  | succ fuel ih =>
      unfold copyWriteLoop
      split_ifs with hsize
      · simp
      · intro h
        rcases bind_eq_error.mp h with hstore | ⟨memory', -, hrest⟩
        · exact memoryStore_ne_abort _ _ _ _ hstore
        · exact ih _ _ _ _ hrest

/-- `mmap2` aborts at its check only. -/
theorem mipsSyscallMmap2_abort {s : Machine} {len : U32}
    (h : mipsSyscallMmap2 s len = .error .abort) :
    StackArgs s ∧ s.memory.mmapHeapEnd + roundedLen len > USER_TOP := by
  rw [mipsSyscallMmap2_eq] at h
  -- The stack arguments are read before the check.
  rcases bind_eq_error.mp h with hfd | ⟨fd, hfd, h⟩
  · exact absurd hfd (memoryReadU32_ne_abort _ _)
  rcases bind_eq_error.mp h with hpgoff | ⟨pgoff, hpgoff, h⟩
  · exact absurd hpgoff (memoryReadU32_ne_abort _ _)
  refine ⟨⟨⟨fd, hfd⟩, ⟨pgoff, hpgoff⟩⟩, ?_⟩
  by_contra hcheck
  rw [if_neg hcheck] at h
  rcases bind_eq_error.mp h with hclear | ⟨memory, -, h⟩
  · exact copyWriteLoop_ne_abort _ _ _ _ _ hclear
  · cases h

/-- A call that returns has read its stack arguments. -/
theorem StackArgs.of_ok {s t : Machine} {len : U32} (h : mipsSyscallMmap2 s len = .ok t) :
    StackArgs s := by
  obtain ⟨fd, hfd, h⟩ := bind_eq_ok.mp h
  obtain ⟨pgoff, hpgoff, -⟩ := bind_eq_ok.mp h
  exact ⟨⟨fd, hfd⟩, ⟨pgoff, hpgoff⟩⟩

/-! ### One call -/

section Call

variable {s t : Machine} {len : U32}

/-- The sums of a call that fits are exact. -/
theorem MmapFits.roundedLen (hfits : MmapFits s len) :
    (MipsEngines.roundedLen len).toNat = (len.toNat + 4095) / 4096 * 4096 :=
  (toNat_add_roundedLen hfits).1

theorem MmapFits.heapEnd (hfits : MmapFits s len) :
    (s.memory.mmapHeapEnd + MipsEngines.roundedLen len).toNat
      = s.memory.mmapHeapEnd.toNat + (len.toNat + 4095) / 4096 * 4096 :=
  (toNat_add_roundedLen hfits).2

/-- The allocator and the clearing loop do not pass `2 ^ 32`. -/
theorem MmapFits.le (hfits : MmapFits s len) :
    s.memory.mmapHeapEnd.toNat + (MipsEngines.roundedLen len).toNat ≤ 2 ^ 32 := by
  rw [hfits.roundedLen]
  exact Nat.le_of_lt hfits

/-- A call that does not fit passes the check: the sum wraps to an end below the area, or the
length wraps to 0 and the area ends where it did. -/
theorem MmapMark.fits_of_check (hmark : MmapMark s.memory)
    (hcheck : s.memory.mmapHeapEnd + roundedLen len > USER_TOP) : MmapFits s len := by
  have hle : s.memory.mmapHeapEnd.toNat ≤ 0x80000000 := hmark.le
  have hcheck' : 0x80000000 < (s.memory.mmapHeapEnd + roundedLen len).toNat := hcheck
  have hlen := len.isLt
  rw [BitVec.toNat_add, toNat_roundedLen] at hcheck'
  unfold MmapFits
  omega

/-- What a call that fits and returns has cleared. -/
theorem MmapFits.zero (hfits : MmapFits s len) (hok : mipsSyscallMmap2 s len = .ok t) {b : U32}
    (hge : s.memory.mmapHeapEnd.toNat ≤ b.toNat)
    (hlt : b.toNat < s.memory.mmapHeapEnd.toNat + (len.toNat + 4095) / 4096 * 4096) :
    memoryReadU8 t.memory b = .ok 0 := by
  have hsize := hfits.roundedLen
  have hin : (b - s.memory.mmapHeapEnd).toNat < (MipsEngines.roundedLen len).toNat := by
    have hb := b.isLt
    rw [hsize, BitVec.toNat_sub]
    omega
  obtain ⟨memory, hclear, hmemory, -⟩ := mipsSyscallMmap2_ok hok
  obtain ⟨memory', hclear', hflat⟩ := clearRegion_eq hfits.le
  cases hclear.symm.trans hclear'
  have hsame : flat t.memory = flat memory := by
    rw [hmemory]
    rfl
  rw [memoryReadU8_eq_ok, hsame, hflat]
  -- Allocated first, so that the write of zeros finds a byte to change.
  simp only [Store.write, Store.allocate, rangeData, if_pos hin,
    if_pos (inPages_of_sub_lt hfits.le hin), Option.map_some, Option.getD_some]

/-- A call that fits delivers or is refused. -/
theorem MmapMark.delivers (hmark : MmapMark s.memory) (hargs : StackArgs s)
    (hfits : MmapFits s len) : MmapDelivers s len := by
  obtain ⟨⟨fd, hfd⟩, pgoff, hpgoff⟩ := hargs
  by_cases hcheck : s.memory.mmapHeapEnd + roundedLen len > USER_TOP
  · left
    rw [mipsSyscallMmap2_eq, hfd, ok_bind, hpgoff, ok_bind, if_pos hcheck]
  · right
    obtain ⟨t, hok⟩ := mipsSyscallMmap2_returns len hfd hpgoff hcheck hfits.le
    obtain ⟨memory, -, hmemory, hv0⟩ := mipsSyscallMmap2_ok hok
    have htop : ¬ USER_TOP.toNat < (s.memory.mmapHeapEnd + roundedLen len).toNat := hcheck
    rw [hfits.heapEnd] at htop
    refine ⟨t, hok, ?_⟩
    rw [hv0]
    refine ⟨hmark.aligned, by omega, fun b hge hlt => hfits.zero hok hge hlt, ?_⟩
    rw [hmemory]
    exact hfits.heapEnd

/-- A call that delivers or is refused has read its arguments, and fits. -/
theorem MmapMark.of_delivers (hmark : MmapMark s.memory) (h : MmapDelivers s len) :
    StackArgs s ∧ MmapFits s len := by
  rcases h with habort | ⟨t, hok, -, htop, -, -⟩
  · obtain ⟨hargs, hcheck⟩ := mipsSyscallMmap2_abort habort
    exact ⟨hargs, hmark.fits_of_check hcheck⟩
  · obtain ⟨memory, -, -, hv0⟩ := mipsSyscallMmap2_ok hok
    rw [hv0] at htop
    exact ⟨.of_ok hok, Nat.lt_of_le_of_lt htop (by decide)⟩

end Call

/-! ### Runs -/

theorem MmapMark.of_mmapHeapEnd {memory memory' : Memory} (hmark : MmapMark memory)
    (h : memory'.mmapHeapEnd = memory.mmapHeapEnd) : MmapMark memory' := by
  refine ⟨?_, ?_, ?_⟩ <;> rw [h]
  · exact hmark.ge
  · exact hmark.le
  · exact hmark.aligned

/-- The loader leaves the area empty. -/
theorem mmapMark_of_loaderElf {elf : List U8} {fresh : Nat → Nat → U8} {s : Machine}
    (hload : loaderElf elf fresh .initial = .ok s) : MmapMark s.memory := by
  obtain ⟨ehdr, hehdr, hrest⟩ := bind_eq_ok.mp hload
  obtain ⟨phdrs, hphdr, -⟩ := bind_eq_ok.mp hrest
  have hphdrs : programHeaders elf = .ok phdrs := bind_eq_ok.mpr ⟨ehdr, hehdr, hphdr⟩
  have hinitial : MmapMark Machine.initial.memory := ⟨by decide, by decide, by decide⟩
  apply hinitial.of_mmapHeapEnd
  rw [(loaderElf_marks hphdrs hload).mmapHeapEnd, (foldl_raisePhdr_mmap _ _).2]

/-- A call that returns, with an end that does not wrap. -/
theorem MmapMark.call {s s' : Machine} (hmark : MmapMark s.memory) {c : HeapCall}
    (hfits : ∀ len, c = .mmap2 len → MmapFits s len) (h : c.run s = .ok s') :
    MmapMark s'.memory := by
  cases c with
  | brk x =>
      cases h
      exact hmark.of_mmapHeapEnd (mipsSyscallBrk_marks s x).mmapHeapEnd
  | mmap2 len =>
      -- What it delivers ends where the area does, in whole pages.
      have hfit := hfits len rfl
      have hok : mipsSyscallMmap2 s len = .ok s' := h
      rcases hmark.delivers (.of_ok hok) hfit with habort | ⟨t, ht, haligned, htop, -, hend⟩
      · cases hok.symm.trans habort
      · cases hok.symm.trans ht
        obtain ⟨memory, -, -, hv0⟩ := mipsSyscallMmap2_ok hok
        have hge := hmark.ge
        rw [hv0] at haligned htop hend
        refine ⟨?_, ?_, ?_⟩ <;> rw [hend]
        · omega
        · exact htop
        · omega

theorem MmapMark.of_regionRun {s₀ s : Machine} {mmaps : List Region} (h₀ : MmapMark s₀.memory)
    (run : RegionRun (fun s c => ∀ len, c = .mmap2 len → MmapFits s len) s₀ mmaps s) :
    MmapMark s.memory := by
  induction run with
  | start => exact h₀
  | call run c hc h ih => exact ih.call hc h
  | other run h ih => exact ih.of_mmapHeapEnd h.mmapHeapEnd

/-- In a run of any engine whose `mmap2` calls have not wrapped, the area ends between
`0x40000000` and `USER_TOP`, and a call of any length delivers what it was asked or is refused
exactly when its stack arguments can be read and its end does not wrap either. -/
theorem mmap2_delivers_iff {host : Host} (engine : Engine) (elf : List U8)
    (fresh : Nat → Nat → U8) (s₀ : Machine) (hload : loaderElf elf fresh .initial = .ok s₀)
    (visited : List engine.State) (st : engine.State)
    (run : (engine.interpreter host).Run visited (engine.start s₀) st)
    (hfits : ∀ v ∈ visited, ∀ len, engine.heapCall v = some (.mmap2 len) →
      MmapFits (engine.machine v) len) :
    0x40000000 ≤ (engine.machine st).memory.mmapHeapEnd.toNat ∧
    (engine.machine st).memory.mmapHeapEnd.toNat ≤ USER_TOP.toNat ∧
    ∀ len, MmapDelivers (engine.machine st) len ↔
      StackArgs (engine.machine st) ∧ MmapFits (engine.machine st) len := by
  -- The run as a sequence of calls, from the machine that the loader left.
  have hmachine : engine.machine (engine.start s₀) = s₀ := by cases engine <;> rfl
  have h₀ : RegionRun (fun s c => ∀ len, c = .mmap2 len → MmapFits s len) s₀ []
      (engine.machine (engine.start s₀)) := by
    rw [hmachine]
    exact .start
  have hrun := RegionRun.of_run run
    (fun v hv c hc len hlen => hfits v hv len (by rw [hc, hlen])) h₀
  have hmark := (mmapMark_of_loaderElf hload).of_regionRun hrun
  refine ⟨hmark.ge, hmark.le, fun len => ⟨hmark.of_delivers, ?_⟩⟩
  rintro ⟨hargs, hfit⟩
  exact hmark.delivers hargs hfit

/-- A file whose program maps one page. -/
abbrev mmapElf : List U8 := elfOf 0x400000 [0x24021072, 0x24051000, 0x0000000c, 0]

/-- The next step is a call whose end wraps. -/
def wrapsNext (s : Machine) : Bool :=
  match Engine.switch.heapCall s with
  | some (.mmap2 len) => !decide (MmapFits s len)
  | _ => false

/-- After a call of a program for one page, the next one. -/
theorem mmap2_delivers_iff_mmapElf :
    ∃ s₀ s, loaderElf mmapElf (fun _ _ => 0) .initial = .ok s₀ ∧
      (interpreterSwitch failingHost).Reaches s₀ s ∧ s.memory.mmapHeapEnd = 0x40001000 ∧
      MmapDelivers s 0x1000 := by
  have hcheck : okWith (fun s₀ =>
        okWith (fun s => s.memory.mmapHeapEnd == 0x40001000 &&
            okWith (fun _ => true) (memoryReadU32 s.memory (s.reg MIPS_R_SP + 16)) &&
            okWith (fun _ => true) (memoryReadU32 s.memory (s.reg MIPS_R_SP + 20)))
          ((interpreterSwitch failingHost).execUntil wrapsNext 3 s₀))
      (loaderElf mmapElf (fun _ _ => 0) .initial) = true := by decide +kernel
  obtain ⟨s₀, hload, hcheck⟩ := okWith_eq_true.mp hcheck
  obtain ⟨s, hexec, hcheck⟩ := okWith_eq_true.mp hcheck
  obtain ⟨hcheck, hpgoff⟩ := Bool.and_eq_true_iff.mp hcheck
  obtain ⟨hmmap, hfd⟩ := Bool.and_eq_true_iff.mp hcheck
  obtain ⟨fd, hfd, -⟩ := okWith_eq_true.mp hfd
  obtain ⟨pgoff, hpgoff, -⟩ := okWith_eq_true.mp hpgoff
  obtain ⟨visited, run, hwraps⟩ := run_of_execUntil hexec
  have hmmap' : s.memory.mmapHeapEnd = 0x40001000 := eq_of_beq hmmap
  refine ⟨s₀, s, hload, ⟨visited, run⟩, hmmap', ?_⟩
  -- The evaluation stops before a call that does not fit, so none is in the run.
  have hfits : ∀ v ∈ visited, ∀ len, Engine.switch.heapCall v = some (.mmap2 len) →
      MmapFits v len := by
    intro v hv len hcall
    have hnot := hwraps v hv
    unfold wrapsNext at hnot
    rw [hcall] at hnot
    simpa using hnot
  obtain ⟨-, -, hdelivers⟩ :=
    mmap2_delivers_iff .switch mmapElf (fun _ _ => 0) s₀ hload visited s run hfits
  refine (hdelivers 0x1000).mpr ⟨⟨⟨fd, hfd⟩, ⟨pgoff, hpgoff⟩⟩, ?_⟩
  show s.memory.mmapHeapEnd.toNat + _ < _
  rw [hmmap']
  decide

/-- A file whose program asks for `0xc0000000` bytes. -/
abbrev wrapElf : List U8 := elfOf 0x400000 [0x24021072, 0x3c05c000, 0x0000000c, 0]

/-- The sum of that call wraps to 0: the call returns `0x40000000` for a region that ends at
`2 ^ 32`, and leaves the area to end at 0. -/
theorem mmap2_wraps :
    ∃ s₀ s t, loaderElf wrapElf (fun _ _ => 0) .initial = .ok s₀ ∧
      (interpreterSwitch failingHost).Reaches s₀ s ∧
      (interpreterSwitch failingHost).step s = .ok t ∧ t.reg MIPS_R_V0 = 0x40000000 ∧
      t.memory.mmapHeapEnd = 0 ∧ ¬ MmapDelivers s 0xc0000000 := by
  have hcheck : okWith (fun s₀ =>
        okWith (fun s => s.reg MIPS_R_V0 == NR_mmap2 && s.reg MIPS_R_A1 == 0xc0000000 &&
            s.memory.mmapHeapEnd == 0x40000000 && okWith (fun cir => cir == 0xc) (fetch s) &&
            okWith (fun _ => true) (memoryReadU32 s.memory (s.reg MIPS_R_SP + 16)) &&
            okWith (fun _ => true) (memoryReadU32 s.memory (s.reg MIPS_R_SP + 20)))
          ((interpreterSwitch failingHost).execUntil (fun _ => false) 2 s₀))
      (loaderElf wrapElf (fun _ _ => 0) .initial) = true := by decide +kernel
  obtain ⟨s₀, hload, hcheck⟩ := okWith_eq_true.mp hcheck
  obtain ⟨s, hexec, hcheck⟩ := okWith_eq_true.mp hcheck
  simp only [Bool.and_eq_true, beq_iff_eq] at hcheck
  obtain ⟨⟨⟨⟨⟨hv0, ha1⟩, hmmap⟩, hfetch⟩, hfd⟩, hpgoff⟩ := hcheck
  obtain ⟨cir, hfetch, hcir⟩ := okWith_eq_true.mp hfetch
  obtain ⟨fd, hfd, -⟩ := okWith_eq_true.mp hfd
  obtain ⟨pgoff, hpgoff, -⟩ := okWith_eq_true.mp hpgoff
  obtain ⟨visited, run, -⟩ := run_of_execUntil hexec
  -- The call itself is too long to evaluate, so its result comes from the lemmas.
  obtain ⟨t, hok⟩ := mipsSyscallMmap2_returns 0xc0000000 hfd hpgoff
    (by rw [hmmap]; decide) (by rw [hmmap]; decide)
  obtain ⟨memory, -, hmemory, hreturned⟩ := mipsSyscallMmap2_ok hok
  have hexecute : execute failingHost .syscall cir s = .ok t := by
    show itpSyscallImpl failingHost (s.reg MIPS_R_V0) _ (s.reg MIPS_R_A1) _ s = _
    rw [hv0, itpSyscallImpl_mmap2, ha1, hok]
  have hstep : (interpreterSwitch failingHost).step s = .ok (incrementPc t) :=
    switchStep_eq_ok.mpr ⟨cir, .syscall, t, hfetch, by rw [eq_of_beq hcir]; decide, hexecute, rfl⟩
  refine ⟨s₀, s, incrementPc t, hload, ⟨visited, run⟩, hstep, ?_, ?_, ?_⟩
  · exact hreturned.trans hmmap
  · show t.memory.mmapHeapEnd = 0
    rw [hmemory, hmmap]
    rfl
  · intro hdelivers
    have hmark : MmapMark s.memory := by
      refine ⟨?_, ?_, ?_⟩ <;> rw [hmmap] <;> decide
    have hfit := (hmark.of_delivers hdelivers).2
    unfold MmapFits at hfit
    rw [hmmap] at hfit
    exact absurd hfit (by decide)

end MipsEngines
