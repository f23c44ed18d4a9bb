import MipsEngines.Proofs.HeapMarks

/-!
# `MipsEngines.Proofs.RegionRuns`: the regions of the guest over whole runs

`loader_elf` establishes the layout (`layout_of_loaderElf`), and calls that fit keep it
(`RegionRun.layout`). `regions_disjoint_iff` says so of sequences of calls and
`engine_regions_disjoint` of the runs of the four engines, which are such sequences
(`RegionRun.of_run`).
-/

set_option autoImplicit false

namespace MipsEngines

open Lib StepMachine

/-! ### The first state -/

theorem foldl_max_le {l : List Nat} {a b : Nat} (ha : a ≤ b) (h : ∀ x ∈ l, x ≤ b) :
    l.foldl max a ≤ b := by
  induction l generalizing a with
  | nil => exact ha
  | cons x l ih =>
      have hx := h x List.mem_cons_self
      exact ih (by omega) fun y hy => h y (List.mem_cons_of_mem _ hy)

theorem le_foldl_max {l : List Nat} {a : Nat} : a ≤ l.foldl max a ∧ ∀ x ∈ l, x ≤ l.foldl max a := by
  induction l generalizing a with
  | nil => simp
  | cons x l ih =>
      obtain ⟨hstart, hrest⟩ := ih (a := max a x)
      rw [List.foldl_cons]
      refine ⟨by omega, List.forall_mem_cons.mpr ⟨by omega, hrest⟩⟩

/-- What the guest starts with. -/
theorem layout_of_loaderElf {elf : List U8} {fresh : Nat → Nat → U8} {s : Machine}
    {phdrs : List Elf32Phdr} (hphdrs : programHeaders elf = .ok phdrs)
    (hload : loaderElf elf fresh .initial = .ok s)
    (hbelow : ∀ phdr ∈ loads phdrs, phdr.top ≤ 0x40000000)
    (hsegments : (segmentRegions phdrs).Pairwise Region.Disjoint) :
    Layout phdrs [] s.memory := by
  -- Only the segments move the marks; the rest of the loader writes bytes.
  refine Layout.of_sameMarks ?_ (loaderElf_marks hphdrs hload)
  obtain ⟨hstart, hend⟩ := foldl_raisePhdr Machine.initial.memory rfl
    fun phdr hphdr => Nat.lt_of_le_of_lt (hbelow phdr hphdr) (by decide)
  obtain ⟨hmmap, hmmap'⟩ := foldl_raisePhdr_mmap phdrs Machine.initial.memory
  have hstart' : (phdrs.foldl raisePhdr Machine.initial.memory).brkHeapStart.toNat
      = ((loads phdrs).map Elf32Phdr.top).foldl max 0 := hstart
  obtain ⟨-, htops⟩ := le_foldl_max (l := (loads phdrs).map Elf32Phdr.top) (a := 0)
  have hle : ((loads phdrs).map Elf32Phdr.top).foldl max 0 ≤ 0x40000000 := by
    apply foldl_max_le (by decide)
    intro top htop
    obtain ⟨phdr, hphdr, rfl⟩ := List.mem_map.mp htop
    exact hbelow phdr hphdr
  constructor
  -- The heap is empty at the highest segment end, and nothing is mmapped yet.
  case segments => exact hsegments
  case top_le =>
    intro phdr hphdr
    rw [hstart']
    exact htops _ (List.mem_map_of_mem hphdr)
  case start_le => rw [hstart']; exact hle
  case heap => rw [hend]
  case mmapHeapStart => rw [hmmap]; rfl
  case mmap_ge => rw [hmmap']; decide
  case mmap_le => rw [hmmap']; decide
  case aligned => rw [hmmap']; rfl
  case apart => rw [hend, hstart']; exact .inl hle
  case mmaps_in => simp
  case mmaps_disjoint => exact .nil
  case mmaps_first =>
    intro hlt
    rw [hmmap'] at hlt
    exact absurd hlt (by decide)

/-! ### Sequences of calls -/

/-- Calls that fit keep the invariant. -/
theorem RegionRun.layout {phdrs : List Elf32Phdr} {s₀ s : Machine} {mmaps : List Region}
    (h₀ : Layout phdrs [] s₀.memory) (run : RegionRun HeapCall.Fits s₀ mmaps s) :
    Layout phdrs mmaps s.memory := by
  induction run with
  | start => exact h₀
  | call run c hc h ih =>
      cases c with
      | brk x =>
          cases h
          rw [HeapCall.returned, List.append_nil]
          exact ih.brk hc
      | mmap2 len => exact ih.mmap2 hc h
  | other run h ih => exact ih.of_sameMarks h

/-- A call that fits is a call after which the regions are disjoint. -/
theorem Layout.fits_iff {phdrs : List Elf32Phdr} {mmaps : List Region} {s s' : Machine}
    (h : Layout phdrs mmaps s.memory) {c : HeapCall} (hc : c.run s = .ok s') :
    (regions phdrs (mmaps ++ c.returned s') s'.memory).Pairwise Region.Disjoint ↔
      HeapCall.Fits s c := by
  cases c with
  | brk x =>
      cases hc
      rw [HeapCall.returned, List.append_nil]
      constructor
      · intro hdisjoint
        by_contra hfits
        exact h.not_disjoint_brk hfits hdisjoint
      · intro hfits
        exact (h.brk hfits).disjoint
  | mmap2 len =>
      constructor
      · intro hdisjoint
        by_contra hfits
        exact h.not_disjoint_mmap2 hfits hc hdisjoint
      · intro hfits
        exact (h.mmap2 hfits hc).disjoint

/-! ### A file -/

/-- A file whose program exits at once. -/
abbrev exitElf : List U8 := elfOf 0x400000 [0x24020fa1, 0x0000000c]

abbrev exitPhdrs : List Elf32Phdr := [⟨PT_LOAD, 184, 0x400000, 8, 8⟩]

theorem programHeaders_exitElf : programHeaders exitElf = .ok exitPhdrs := by rfl

theorem loads_exitPhdrs : loads exitPhdrs = exitPhdrs := by decide

theorem exitPhdrs_below : ∀ phdr ∈ loads exitPhdrs, phdr.top ≤ 0x40000000 := by decide

theorem exitPhdrs_disjoint : (segmentRegions exitPhdrs).Pairwise Region.Disjoint := by
  unfold segmentRegions
  rw [loads_exitPhdrs]
  exact List.pairwise_singleton _ _

/-- It loads, with its stack arguments mapped. -/
theorem loaderElf_exitElf :
    ∃ s₀ fd pgoff, loaderElf exitElf (fun _ _ => 0) .initial = .ok s₀ ∧
      memoryReadU32 s₀.memory (s₀.reg MIPS_R_SP + 16) = .ok fd ∧
      memoryReadU32 s₀.memory (s₀.reg MIPS_R_SP + 20) = .ok pgoff ∧
      s₀.memory.mmapHeapEnd = 0x40000000 ∧ s₀.memory.brkHeapEnd = 0x400008 := by
  have hcheck : okWith (fun s₀ =>
        okWith (fun _ => okWith (fun _ => s₀.memory.mmapHeapEnd == 0x40000000 &&
              s₀.memory.brkHeapEnd == 0x400008)
            (memoryReadU32 s₀.memory (s₀.reg MIPS_R_SP + 20)))
          (memoryReadU32 s₀.memory (s₀.reg MIPS_R_SP + 16)))
      (loaderElf exitElf (fun _ _ => 0) .initial) = true := by decide +kernel
  obtain ⟨s₀, hload, hcheck⟩ := okWith_eq_true.mp hcheck
  obtain ⟨fd, hfd, hcheck⟩ := okWith_eq_true.mp hcheck
  obtain ⟨pgoff, hpgoff, hcheck⟩ := okWith_eq_true.mp hcheck
  obtain ⟨hmmap, hbrk⟩ := Bool.and_eq_true_iff.mp hcheck
  exact ⟨s₀, fd, pgoff, hload, hfd, hpgoff, eq_of_beq hmmap, eq_of_beq hbrk⟩

/-! ### The regions -/

/-- In a sequence of calls that fit, the regions are disjoint in every state, and what `mmap2`
clears was nobody's. A call that returns without fitting makes regions overlap. -/
theorem regions_disjoint_iff (elf : List U8) (fresh : Nat → Nat → U8) (phdrs : List Elf32Phdr)
    (s₀ : Machine) (hphdrs : programHeaders elf = .ok phdrs)
    (hload : loaderElf elf fresh .initial = .ok s₀)
    (hbelow : ∀ phdr ∈ loads phdrs, phdr.top ≤ 0x40000000)
    (hsegments : (segmentRegions phdrs).Pairwise Region.Disjoint)
    (mmaps : List Region) (s : Machine) (run : RegionRun HeapCall.Fits s₀ mmaps s) :
    (regions phdrs mmaps s.memory).Pairwise Region.Disjoint ∧
    (∀ c s', c.run s = .ok s' →
      ((regions phdrs (mmaps ++ c.returned s') s'.memory).Pairwise Region.Disjoint ↔
        HeapCall.Fits s c)) ∧
    (∀ len s', HeapCall.Fits s (.mmap2 len) → mipsSyscallMmap2 s len = .ok s' →
      ∀ r ∈ regions phdrs mmaps s.memory, ∀ b byte, r.Contains b →
        flat s.memory b = some byte → flat s'.memory b = some byte) := by
  have hlayout := run.layout (layout_of_loaderElf hphdrs hload hbelow hsegments)
  refine ⟨hlayout.disjoint, fun c s' hc => hlayout.fits_iff hc, ?_⟩
  intro len s' hfits hok r hr b byte hb hbyte
  obtain ⟨hrounded, hstack⟩ := hlayout.roundedLen hfits
  refine mipsSyscallMmap2_flat hok (by rw [hrounded]; omega) ?_ hbyte
  intro hin
  -- A byte that is cleared is in the new region, which is disjoint from `r`.
  have hafter := (hlayout.mmap2 hfits hok).disjoint
  have hnew : (⟨s.memory.mmapHeapEnd, (len.toNat + 4095) / 4096 * 4096⟩ : Region).Contains b := by
    show (b - s.memory.mmapHeapEnd).toNat < _
    rw [← hrounded]
    exact hin
  rw [returned_mmap2 hok] at hafter
  have hmarks := mipsSyscallMmap2_marks hok
  have hsame : heapRegion s'.memory = heapRegion s.memory := by
    unfold heapRegion
    rw [hmarks.brkHeapStart, hmarks.brkHeapEnd]
  have hsplit : regions phdrs (mmaps ++ [⟨s.memory.mmapHeapEnd, (len.toNat + 4095) / 4096 * 4096⟩])
      s'.memory = regions phdrs mmaps s.memory
        ++ [⟨s.memory.mmapHeapEnd, (len.toNat + 4095) / 4096 * 4096⟩] := by
    unfold regions
    rw [hsame]
    simp
  rw [hsplit, List.pairwise_append] at hafter
  exact hafter.2.2 r hr _ (List.mem_singleton.mpr rfl) b ⟨hb, hnew⟩

/-- One page is mapped, and then the heap grows. -/
theorem regions_disjoint_iff_exitElf :
    ∃ s₀ s, loaderElf exitElf (fun _ _ => 0) .initial = .ok s₀ ∧
      RegionRun HeapCall.Fits s₀ [⟨0x40000000, 0x1000⟩] s ∧ s.memory.brkHeapEnd = 0x500000 ∧
      (regions exitPhdrs [⟨0x40000000, 0x1000⟩] s.memory).Pairwise Region.Disjoint := by
  obtain ⟨s₀, fd, pgoff, hload, hfd, hpgoff, hmmap, hbrk⟩ := loaderElf_exitElf
  obtain ⟨s₁, hok⟩ := mipsSyscallMmap2_returns 0x1000 hfd hpgoff
    (by rw [hmmap]; decide) (by rw [hmmap]; decide)
  have hfits₁ : HeapCall.Fits s₀ (.mmap2 0x1000) := by
    right
    rw [hmmap, hbrk]
    decide
  have run₁ := RegionRun.start.call (.mmap2 0x1000) hfits₁ hok
  have hreturned : (HeapCall.mmap2 0x1000).returned s₁ = [⟨0x40000000, 0x1000⟩] := by
    rw [returned_mmap2 hok, hmmap]
    rfl
  rw [hreturned] at run₁
  have hmarks := mipsSyscallMmap2_marks hok
  have hstart : s₁.memory.mmapHeapStart = 0x40000000 := by
    rw [hmarks.mmapHeapStart]
    exact (layout_of_loaderElf programHeaders_exitElf hload exitPhdrs_below
      exitPhdrs_disjoint).mmapHeapStart
  have hfits₂ : HeapCall.Fits s₁ (.brk 0x500000) := by
    right; left
    rw [hstart]
    decide
  have run₂ := run₁.call (.brk 0x500000) hfits₂ rfl
  refine ⟨s₀, mipsSyscallBrk s₁ 0x500000, hload, run₂, ?_, ?_⟩
  · rw [(mipsSyscallBrk_marks s₁ 0x500000).brkHeapEnd]
    have hend : s₁.memory.brkHeapEnd = 0x400008 := by rw [hmarks.brkHeapEnd, hbrk]
    rw [hend]
    rfl
  · exact (regions_disjoint_iff exitElf (fun _ _ => 0) exitPhdrs s₀ programHeaders_exitElf hload
      exitPhdrs_below exitPhdrs_disjoint _ _ run₂).1

/-- `mmap2(0xc0000000)` passes the check, since the end of the region is 0 in 32 bits, and
clears the stack. -/
theorem regions_overlap :
    ¬ ∀ (elf : List U8) (fresh : Nat → Nat → U8) (phdrs : List Elf32Phdr) (s₀ : Machine),
      programHeaders elf = .ok phdrs → loaderElf elf fresh .initial = .ok s₀ →
      (∀ phdr ∈ loads phdrs, phdr.top ≤ 0x40000000) →
      (segmentRegions phdrs).Pairwise Region.Disjoint →
      ∀ mmaps s, RegionRun (fun _ _ => True) s₀ mmaps s →
        (regions phdrs mmaps s.memory).Pairwise Region.Disjoint := by
  intro hclaim
  obtain ⟨s₀, fd, pgoff, hload, hfd, hpgoff, hmmap, hbrk⟩ := loaderElf_exitElf
  obtain ⟨s₁, hok⟩ := mipsSyscallMmap2_returns 0xc0000000 hfd hpgoff
    (by rw [hmmap]; decide) (by rw [hmmap]; decide)
  have hlayout := layout_of_loaderElf programHeaders_exitElf hload exitPhdrs_below
    exitPhdrs_disjoint
  have hfits : ¬ HeapCall.Fits s₀ (.mmap2 0xc0000000) := by
    show ¬ ((0xc0000000 : U32) = 0 ∨ (s₀.memory.brkHeapEnd ≤ s₀.memory.mmapHeapEnd ∧
      s₀.memory.mmapHeapEnd.toNat + (0xc0000000 : U32).toNat ≤ STACK_BOT.toNat))
    rw [hmmap, hbrk]
    decide
  exact hlayout.not_disjoint_mmap2 hfits hok
    (hclaim exitElf (fun _ _ => 0) exitPhdrs s₀ programHeaders_exitElf hload exitPhdrs_below
      exitPhdrs_disjoint _ s₁ (RegionRun.start.call (.mmap2 0xc0000000) trivial hok))

/-! ### Runs of the engines -/

/-- The call that the next step of an engine makes. -/
def Engine.heapCall (engine : Engine) (st : engine.State) : Option HeapCall :=
  (engine.executing st).bind fun w => MipsEngines.heapCall w.2 (engine.machine st)

/-- The region that the next step of an engine returns, if it is an `mmap2`. -/
def Engine.mmapped (engine : Engine) (st : engine.State) : List Region :=
  match engine.heapCall st with
  | some (.mmap2 len) =>
      [⟨(engine.machine st).memory.mmapHeapEnd, (len.toNat + 4095) / 4096 * 4096⟩]
  | _ => []

theorem Engine.mmapped_of_call {engine : Engine} {st : engine.State} {c : HeapCall} {t : Machine}
    (hc : engine.heapCall st = some c) (ht : c.run (engine.machine st) = .ok t) :
    engine.mmapped st = c.returned t := by
  unfold Engine.mmapped
  rw [hc]
  cases c with
  | brk x => rfl
  | mmap2 len => exact (returned_mmap2 ht).symm

theorem Engine.mmapped_of_none {engine : Engine} {st : engine.State}
    (hc : engine.heapCall st = none) : engine.mmapped st = [] := by
  unfold Engine.mmapped
  rw [hc]

/-- A step of an engine is a call or moves no mark. -/
theorem RegionRun.step {host : Host} {engine : Engine} {P : Machine → HeapCall → Prop}
    {s₀ : Machine} {st st' : engine.State} {mmaps : List Region}
    (run : RegionRun P s₀ mmaps (engine.machine st))
    (hstep : (engine.interpreter host).step st = .ok st')
    (hP : ∀ c, engine.heapCall st = some c → P (engine.machine st) c) :
    RegionRun P s₀ (mmaps ++ engine.mmapped st) (engine.machine st') := by
  have hone := engine_step engine hstep
  cases hw : engine.executing st with
  | none =>
      -- No handler: only the pipe moves.
      have hc : engine.heapCall st = none := by rw [Engine.heapCall, hw]; rfl
      rw [hw] at hone
      obtain ⟨p, hp⟩ := hone
      have hmarks : SameMarks (engine.machine st).memory (engine.machine st').memory := by
        rw [hp]
        exact .refl _
      rw [Engine.mmapped_of_none hc, List.append_nil]
      exact run.other hmarks
  | some w =>
      have hcall : engine.heapCall st = MipsEngines.heapCall w.2 (engine.machine st) := by
        rw [Engine.heapCall, hw]
        rfl
      rw [hw] at hone
      obtain ⟨t, p, ht, hp⟩ := hone
      have hmarks : SameMarks t.memory (engine.machine st').memory := by
        rw [hp]
        exact .refl _
      -- Only `brk` and `mmap2` move a mark.
      have hmoves := execute_marks ht
      rw [← hcall] at hmoves
      cases hc : engine.heapCall st with
      | none =>
          rw [hc] at hmoves
          rw [Engine.mmapped_of_none hc, List.append_nil]
          exact (run.other hmoves).other hmarks
      | some c =>
          rw [hc] at hmoves
          rw [Engine.mmapped_of_call hc hmoves]
          exact (run.call c (hP c hc) hmoves).other hmarks

/-- A run of any engine is a sequence of calls. -/
theorem RegionRun.of_run {host : Host} {engine : Engine} {P : Machine → HeapCall → Prop}
    {s₀ : Machine} {visited : List engine.State} {st₀ st : engine.State}
    (run : (engine.interpreter host).Run visited st₀ st)
    (hP : ∀ v ∈ visited, ∀ c, engine.heapCall v = some c → P (engine.machine v) c)
    {mmaps : List Region} (h₀ : RegionRun P s₀ mmaps (engine.machine st₀)) :
    RegionRun P s₀ (mmaps ++ visited.flatMap engine.mmapped) (engine.machine st) := by
  induction run generalizing mmaps with
  | refl => simpa using h₀
  | head hdone hstep hrest ih =>
      have hone := h₀.step hstep (hP _ List.mem_cons_self)
      rw [List.flatMap_cons, ← List.append_assoc]
      exact ih (fun v hv => hP v (List.mem_cons_of_mem _ hv)) hone

/-- On every engine, the regions stay disjoint as long as the calls of the guest fit. -/
theorem engine_regions_disjoint {host : Host} (engine : Engine) {elf : List U8}
    {fresh : Nat → Nat → U8} {phdrs : List Elf32Phdr} {s₀ : Machine}
    (hphdrs : programHeaders elf = .ok phdrs) (hload : loaderElf elf fresh .initial = .ok s₀)
    (hbelow : ∀ phdr ∈ loads phdrs, phdr.top ≤ 0x40000000)
    (hsegments : (segmentRegions phdrs).Pairwise Region.Disjoint)
    {visited : List engine.State} {st : engine.State}
    (run : (engine.interpreter host).Run visited (engine.start s₀) st)
    (hfits : ∀ v ∈ visited, ∀ c, engine.heapCall v = some c →
      HeapCall.Fits (engine.machine v) c) :
    (regions phdrs (visited.flatMap engine.mmapped) (engine.machine st).memory).Pairwise
      Region.Disjoint := by
  have hmachine : engine.machine (engine.start s₀) = s₀ := by cases engine <;> rfl
  have h₀ : RegionRun HeapCall.Fits s₀ [] (engine.machine (engine.start s₀)) := by
    rw [hmachine]
    exact .start
  have hrun := RegionRun.of_run run hfits h₀
  exact (hrun.layout (layout_of_loaderElf hphdrs hload hbelow hsegments)).disjoint

end MipsEngines
