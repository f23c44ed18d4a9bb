import MipsEngines.Lib.Search
import MipsEngines.Proofs.InitialStack
import MipsEngines.Proofs.LoadedImage
import MipsEngines.Proofs.MmapDelivers

/-!
# `MipsEngines.Proofs.LoaderChecks`: files that `loader_elf` acts on

The loader checks how much it reads from the file, and little else: not `p_filesz` with
`p_memsz`, not that a segment ends below `2 ^ 32`, not `sh_link`, not `st_name`. `SafeFile` is
what a file has to meet for the loader to abort or to complete without leaving its tables, up to
the place where a read comes short and the loader stops.

Both loops are searches that may end early (`Lib.Reached`): the loop over the segments at the
first that is not in the file, the search for `_gp` at the first table that is not in the file or
at the first match.
-/

set_option autoImplicit false

namespace MipsEngines

open Lib

/-- How a routine ends: where it is `safe` it completes or aborts, and completes exactly when
`all` is there. Elsewhere it fails. -/
inductive Ends {α : Type} (safe all : Prop) (result : Except Fault α) : Prop
  | completes (hsafe : safe) (hall : all) (a : α) (h : result = .ok a)
  | aborts (hsafe : safe) (hall : ¬ all) (h : result = .error .abort)
  | fails (hsafe : ¬ safe) (e : Fault) (h : result = .error e) (he : e ≠ .abort)

theorem Ends.congr {α : Type} {safe safe' all all' : Prop} {result result' : Except Fault α}
    (h : Ends safe all result) (hsafe : safe' ↔ safe) (hall : all' ↔ all)
    (hresult : result' = result) : Ends safe' all' result' := by
  rw [hsafe, hall, hresult]
  exact h

/-! ### Segments -/

/-- The file has `p_filesz` bytes from `p_offset` on. -/
def Elf32Phdr.Readable (elf : List U8) (phdr : Elf32Phdr) : Prop :=
  phdr.pFilesz.toNat ≤ elf.length - phdr.pOffset.toNat

/-- What is read fits in the transfer buffer, and if it is all there, the memory of the segment
lies in pages that are allocated for it or for an earlier one. -/
structure SegmentSafe (elf : List U8) (earlier : List Elf32Phdr) (phdr : Elf32Phdr) : Prop where
  placed : min phdr.pFilesz.toNat (elf.length - phdr.pOffset.toNat) ≤ phdr.pMemsz.toNat
  mapped : phdr.Readable elf → ∀ i < phdr.pMemsz.toNat, ∃ q ∈ loads (earlier ++ [phdr]),
    InPages q.pVaddr q.pMemsz (phdr.pVaddr + BitVec.ofNat 32 i)

/-- The loop goes on past a header that is not loaded or is all in the file. -/
def SegmentPasses (elf : List U8) (phdr : Elf32Phdr) : Prop :=
  phdr.pType = PT_LOAD → phdr.Readable elf

/-- Every segment that the loop gets to, after `done`, is safe. -/
def SegmentsSafe (elf : List U8) (done phdrs : List Elf32Phdr) : Prop :=
  ∀ before phdr, Reached (SegmentPasses elf) phdrs before phdr → phdr.pType = PT_LOAD →
    SegmentSafe elf (done ++ before) phdr

/-- A copy that succeeds was over mapped bytes. -/
theorem copyWriteLoop_mapped {fuel : Nat} {memory memory' : Memory} {address size : U32}
    {buffer : Nat → U8} (hfuel : size.toNat ≤ fuel)
    (h : copyWriteLoop fuel memory address size buffer = .ok memory') :
    MappedRange memory address size.toNat := by
  induction fuel generalizing memory address size buffer with
  | zero => exact fun i hi => by omega
  | succ fuel ih =>
      unfold copyWriteLoop at h
      by_cases hsize : size = 0
      · subst hsize
        exact fun i hi => absurd hi (Nat.not_lt_zero i)
      · rw [if_neg hsize] at h
        obtain ⟨memory₁, hstore, hloop⟩ := bind_eq_ok.mp h
        have hround := round_chunk address hsize
        have hrest := hround.rest
        have hpos := hround.pos
        generalize chunk address size = amount at *
        obtain ⟨hmapped, hinPage⟩ := memoryStore_eq_ok hstore
        have hnext := ih (by omega) hloop
        intro i hi
        by_cases hfirst : i < amount.toNat
        · exact hmapped.range hinPage i hfirst
        · -- A byte of a later round, mapped there and so before the store.
          have hlater := hnext (i - amount.toNat) (by omega)
          rw [next_add, Nat.add_sub_cancel' (Nat.not_lt.mp hfirst)] at hlater
          exact ((Stored.store hstore).mapped _).mp hlater

/-- A copy succeeds over mapped bytes only, and never aborts. -/
theorem copyWriteLoop_cases {fuel : Nat} (memory : Memory) (address : U32) {size : U32}
    (buffer : Nat → U8) (hfuel : size.toNat ≤ fuel) :
    (MappedRange memory address size.toNat ∧
      ∃ memory', copyWriteLoop fuel memory address size buffer = .ok memory') ∨
    (¬ MappedRange memory address size.toNat ∧
      ∃ e, copyWriteLoop fuel memory address size buffer = .error e ∧ e ≠ .abort) := by
  by_cases hmapped : MappedRange memory address size.toNat
  · obtain ⟨memory', hcopy, -⟩ := copyWriteLoop_eq buffer hfuel hmapped
    exact .inl ⟨hmapped, memory', hcopy⟩
  · refine .inr ⟨hmapped, ?_⟩
    cases hcopy : copyWriteLoop fuel memory address size buffer with
    | ok memory' => exact absurd (copyWriteLoop_mapped hfuel hcopy) hmapped
    | error e =>
        refine ⟨e, rfl, ?_⟩
        rintro rfl
        exact copyWriteLoop_ne_abort fuel memory address size buffer hcopy

theorem length_fread_eq (elf : List U8) (offset size : Nat) :
    (fread elf offset size).length = min size (elf.length - offset) := by
  unfold fread
  rw [List.length_take, List.length_drop]

section Segment

variable {elf : List U8} {fresh : Nat → U8} {memory memory' : Memory} {phdr : Elf32Phdr}

/-- What is allocated for a segment. -/
def segmentMemory (memory : Memory) (phdr : Elf32Phdr) : Memory :=
  memoryAllocate (raiseBrkHeap memory (phdr.pVaddr + phdr.pMemsz)) phdr.pVaddr phdr.pMemsz

theorem mapped_segmentMemory (memory : Memory) (phdr : Elf32Phdr) (b : U32) :
    Mapped (segmentMemory memory phdr) b ↔
      Mapped memory b ∨ InPages phdr.pVaddr phdr.pMemsz b := by
  unfold Mapped segmentMemory
  rw [flat_memoryAllocate, flat_raiseBrkHeap, Store.isSome_allocate, or_comm]

/-- A segment that is safe in a memory. -/
structure FitsMemory (elf : List U8) (memory : Memory) (phdr : Elf32Phdr) : Prop where
  placed : min phdr.pFilesz.toNat (elf.length - phdr.pOffset.toNat) ≤ phdr.pMemsz.toNat
  mapped : phdr.Readable elf →
    MappedRange (segmentMemory memory phdr) phdr.pVaddr phdr.pMemsz.toNat

/-- A segment that is read and copied: what is left of its memory is cleared. -/
theorem clear_rest (phdr : Elf32Phdr)
    (hmapped : MappedRange memory phdr.pVaddr phdr.pMemsz.toNat) :
    ∃ memory', (if phdr.pMemsz > phdr.pFilesz then
      memorySet memory (phdr.pVaddr + phdr.pFilesz) (phdr.pMemsz - phdr.pFilesz) 0
      else .ok memory) = .ok memory' := by
  split_ifs with hgap
  · have hle : phdr.pFilesz.toNat ≤ phdr.pMemsz.toNat := Nat.le_of_lt hgap
    have hrest : (phdr.pMemsz - phdr.pFilesz).toNat = phdr.pMemsz.toNat - phdr.pFilesz.toNat :=
      BitVec.toNat_sub_of_le hle
    have hstart : (phdr.pVaddr + phdr.pFilesz - phdr.pVaddr).toNat = phdr.pFilesz.toNat := by
      rw [BitVec.add_comm, BitVec.add_sub_cancel]
    obtain ⟨memory', hset, -⟩ := memorySet_eq 0
      (show MappedRange memory (phdr.pVaddr + phdr.pFilesz) (phdr.pMemsz - phdr.pFilesz).toNat from
        hmapped.sub (by omega))
    exact ⟨memory', hset⟩
  · exact ⟨memory, rfl⟩

/-- It is loaded if it is all in the file. What is not safe fails. -/
theorem loaderLoadSegment_ends (elf : List U8) (fresh : Nat → U8) (memory : Memory)
    (hload : phdr.pType = PT_LOAD) :
    Ends (FitsMemory elf memory phdr) (phdr.Readable elf)
      (loaderLoadSegment elf fresh memory phdr) := by
  unfold loaderLoadSegment
  rw [if_neg (not_not.mpr hload)]
  dsimp only
  rw [length_fread_eq]
  by_cases hplaced : min phdr.pFilesz.toNat (elf.length - phdr.pOffset.toNat) ≤ phdr.pMemsz.toNat
  · rw [if_neg (Nat.not_lt.mpr hplaced)]
    by_cases hread : phdr.pFilesz.toNat ≤ elf.length - phdr.pOffset.toNat
    · -- All of it is read, and what decides is whether the copy meets mapped bytes only.
      rw [if_neg (by omega)]
      rcases copyWriteLoop_cases (segmentMemory memory phdr) phdr.pVaddr
          (fun i => (fread elf phdr.pOffset.toNat phdr.pFilesz.toNat).getD i (fresh i))
          (Nat.le_refl phdr.pMemsz.toNat) with ⟨hmapped, copied, hcopy⟩ | ⟨hmapped, e, hcopy, he⟩
      · have hcopied : MappedRange copied phdr.pVaddr phdr.pMemsz.toNat :=
          fun i hi => ((copyWriteLoop_stored hcopy).mapped _).mpr (hmapped i hi)
        obtain ⟨memory', hclear⟩ := clear_rest phdr hcopied
        exact .completes ⟨hplaced, fun _ => hmapped⟩ hread memory'
          (bind_eq_ok.mpr ⟨copied, hcopy, hclear⟩)
      · exact .fails (fun h => hmapped (h.mapped hread)) e (bind_eq_error.mpr (.inl hcopy)) he
    · -- The read comes short of `p_filesz`.
      rw [if_pos (by omega)]
      exact .aborts ⟨hplaced, fun h => absurd h hread⟩ hread rfl
  · -- The read runs past the transfer buffer.
    rw [if_pos (Nat.lt_of_not_le hplaced)]
    exact .fails (fun h => hplaced h.placed) .overrun rfl (by decide)

/-- A segment that has been loaded is mapped. -/
theorem loaderLoadSegment_mapped (h : loaderLoadSegment elf fresh memory phdr = .ok memory')
    (b : U32) : Mapped memory' b ↔
      Mapped memory b ∨ phdr.pType = PT_LOAD ∧ InPages phdr.pVaddr phdr.pMemsz b := by
  unfold loaderLoadSegment at h
  by_cases hload : phdr.pType = PT_LOAD
  · rw [if_neg (not_not.mpr hload)] at h
    dsimp only at h
    have hstored : Stored (segmentMemory memory phdr) memory' := by
      split_ifs at h
      · obtain ⟨copied, hcopy, h⟩ := bind_eq_ok.mp h
        exact (copyWriteLoop_stored hcopy).trans (copyWriteLoop_stored h)
      · obtain ⟨copied, hcopy, h⟩ := bind_eq_ok.mp h
        cases h
        exact copyWriteLoop_stored hcopy
    rw [hstored.mapped, mapped_segmentMemory, and_iff_right hload]
  · rw [if_pos hload] at h
    cases h
    exact ⟨.inl, fun h => h.resolve_right fun hpages => hload hpages.1⟩

end Segment

/-! ### The loop over the segments -/

section Segments

variable {elf : List U8} {fresh : Nat → Nat → U8}

/-- The pages of segments. -/
def CoveredBy (phdrs : List Elf32Phdr) (b : U32) : Prop :=
  ∃ q ∈ loads phdrs, InPages q.pVaddr q.pMemsz b

theorem coveredBy_append_singleton (phdrs : List Elf32Phdr) (phdr : Elf32Phdr) (b : U32) :
    CoveredBy (phdrs ++ [phdr]) b ↔
      CoveredBy phdrs b ∨ phdr.pType = PT_LOAD ∧ InPages phdr.pVaddr phdr.pMemsz b := by
  simp [CoveredBy, loads, or_and_right, exists_or]

/-- The pages that are mapped after a number of segments. -/
theorem loaderLoadSegments_mapped {phdrs : List Elf32Phdr} {h : Nat} {memory memory' : Memory}
    {done : List Elf32Phdr} (hdone : ∀ b, Mapped memory b ↔ CoveredBy done b)
    (hload : loaderLoadSegments elf fresh h phdrs memory = .ok memory') (b : U32) :
    Mapped memory' b ↔ CoveredBy (done ++ phdrs) b := by
  induction phdrs generalizing h memory done with
  | nil =>
      cases hload
      rw [List.append_nil]
      exact hdone b
  | cons phdr phdrs ih =>
      obtain ⟨memory₁, hone, hrest⟩ := bind_eq_ok.mp hload
      have hdone₁ : ∀ b, Mapped memory₁ b ↔ CoveredBy (done ++ [phdr]) b := by
        intro b
        rw [loaderLoadSegment_mapped hone, coveredBy_append_singleton, hdone]
      rw [List.append_cons]
      exact ih hdone₁ hrest

/-- Safe by the earlier headers is safe in the memory that they leave. -/
theorem segmentSafe_iff {done : List Elf32Phdr} {memory : Memory} {phdr : Elf32Phdr}
    (hdone : ∀ b, Mapped memory b ↔ CoveredBy done b) (hload : phdr.pType = PT_LOAD) :
    SegmentSafe elf done phdr ↔ FitsMemory elf memory phdr := by
  have hpages : ∀ b, Mapped (segmentMemory memory phdr) b ↔ CoveredBy (done ++ [phdr]) b := by
    intro b
    rw [mapped_segmentMemory, coveredBy_append_singleton, hdone, and_iff_right hload]
  constructor
  · intro h
    exact ⟨h.placed, fun hread i hi => (hpages _).mpr (h.mapped hread i hi)⟩
  · intro h
    exact ⟨h.placed, fun hread i hi => (hpages _).mp (h.mapped hread i hi)⟩

theorem segmentsSafe_cons {done phdrs : List Elf32Phdr} {phdr : Elf32Phdr} :
    SegmentsSafe elf done (phdr :: phdrs) ↔
      (phdr.pType = PT_LOAD → SegmentSafe elf done phdr) ∧
        (SegmentPasses elf phdr → SegmentsSafe elf (done ++ [phdr]) phdrs) := by
  unfold SegmentsSafe
  rw [forall_reached_cons, List.append_nil]
  simp only [List.append_assoc, List.singleton_append]

/-- After a segment that is safe and passes, the rest decides. -/
theorem Ends.segment_cons {done phdrs : List Elf32Phdr} {phdr : Elf32Phdr} {h : Nat}
    {memory memory₁ : Memory} (hone : loaderLoadSegment elf (fresh h) memory phdr = .ok memory₁)
    (hsafe : phdr.pType = PT_LOAD → SegmentSafe elf done phdr) (hpass : SegmentPasses elf phdr)
    (hrest : Ends (SegmentsSafe elf (done ++ [phdr]) phdrs)
      (∀ phdr ∈ phdrs, SegmentPasses elf phdr)
      (loaderLoadSegments elf fresh (h + 1) phdrs memory₁)) :
    Ends (SegmentsSafe elf done (phdr :: phdrs))
      (∀ q ∈ phdr :: phdrs, SegmentPasses elf q)
      (loaderLoadSegments elf fresh h (phdr :: phdrs) memory) := by
  refine hrest.congr ?_ ?_ ?_
  · rw [segmentsSafe_cons, and_iff_right hsafe, forall_prop_of_true hpass]
  · rw [List.forall_mem_cons, and_iff_right hpass]
  · show (loaderLoadSegment elf (fresh h) memory phdr >>= _) = _
    rw [hone, ok_bind]

/-- The loop loads every segment or stops at one that is not in the file, if those it gets to
are safe. -/
theorem loaderLoadSegments_ends (elf : List U8) (fresh : Nat → Nat → U8)
    (phdrs : List Elf32Phdr) (h : Nat) {memory : Memory} {done : List Elf32Phdr}
    (hdone : ∀ b, Mapped memory b ↔ CoveredBy done b) :
    Ends (SegmentsSafe elf done phdrs) (∀ phdr ∈ phdrs, SegmentPasses elf phdr)
      (loaderLoadSegments elf fresh h phdrs memory) := by
  induction phdrs generalizing h memory done with
  | nil => exact .completes (fun _ _ hr => absurd hr not_reached_nil) (by simp) memory rfl
  | cons phdr phdrs ih =>
      have hdone₁ : ∀ memory₁, loaderLoadSegment elf (fresh h) memory phdr = .ok memory₁ →
          ∀ b, Mapped memory₁ b ↔ CoveredBy (done ++ [phdr]) b := by
        intro memory₁ hone b
        rw [loaderLoadSegment_mapped hone, coveredBy_append_singleton, hdone]
      by_cases hload : phdr.pType = PT_LOAD
      · have hsafe : SegmentSafe elf done phdr ↔ FitsMemory elf memory phdr :=
          segmentSafe_iff hdone hload
        rcases loaderLoadSegment_ends elf (fresh h) memory hload with
          ⟨hfits, hread, memory₁, hone⟩ | ⟨hfits, hread, hone⟩ | ⟨hfits, e, hone, he⟩
        · exact .segment_cons hone (fun _ => hsafe.mpr hfits) (fun _ => hread)
            (ih (h + 1) (hdone₁ memory₁ hone))
        · refine .aborts (segmentsSafe_cons.mpr ⟨fun _ => hsafe.mpr hfits, ?_⟩) ?_ ?_
          · exact fun hpass => absurd (hpass hload) hread
          · exact fun hall => hread (hall phdr List.mem_cons_self hload)
          · exact bind_eq_error.mpr (.inl hone)
        · refine .fails ?_ e (bind_eq_error.mpr (.inl hone)) he
          exact fun h => hfits (hsafe.mp ((segmentsSafe_cons.mp h).1 hload))
      · have hskip : loaderLoadSegment elf (fresh h) memory phdr = .ok memory := if_pos hload
        exact .segment_cons hskip (fun h => absurd h hload) (fun h => absurd h hload)
          (ih (h + 1) (hdone₁ memory hskip))

end Segments

/-! ### Names -/

/-- The name is one that the search looks for, with its terminator. -/
def IsGpName (name : List U8) : Prop :=
  gpName ++ [0] <+: name ∨ gnuLocalGpName ++ [0] <+: name

/-- The comparisons end before the bytes of the section do. -/
def Comparable (name : List U8) : Prop := ¬ name <+: gpName ∧ ¬ name <+: gnuLocalGpName

/-- `strcmp` runs off a name that is a beginning of the literal. -/
theorem strcmpEq_overrun {name literal : List U8} (h : name <+: literal) :
    strcmpEq name literal = .error .overrun := by
  induction name generalizing literal with
  | nil => rfl
  | cons c name ih =>
      cases literal with
      | nil => simp at h
      | cons l literal =>
          obtain ⟨rfl, htail⟩ := List.cons_prefix_cons.mp h
          exact (if_pos rfl).trans (ih htail)

theorem strcmpEq_of_not_prefix {name literal : List U8} (h : ¬ name <+: literal) :
    ∃ same, strcmpEq name literal = .ok same ∧ (same = true ↔ literal ++ [0] <+: name) := by
  induction name generalizing literal with
  | nil => exact absurd List.nil_prefix h
  | cons c name ih =>
      cases literal with
      | nil =>
          refine ⟨c == 0, rfl, ?_⟩
          rw [List.nil_append, List.cons_prefix_cons, and_iff_left List.nil_prefix, beq_iff_eq,
            eq_comm]
      | cons l literal =>
          rw [List.cons_prefix_cons] at h
          rw [List.cons_append, List.cons_prefix_cons]
          by_cases hc : c = l
          · subst hc
            obtain ⟨same, hsame, hiff⟩ := ih fun hname => h ⟨rfl, hname⟩
            exact ⟨same, (if_pos rfl).trans hsame, by rw [hiff, and_iff_right rfl]⟩
          · refine ⟨false, if_neg hc, ?_⟩
            constructor
            · exact fun hfalse => absurd hfalse (by decide)
            · exact fun hname => absurd hname.1.symm hc

/-- The two comparisons of the search. -/
def compareGp (name : List U8) : Except Fault Bool := do
  if ← strcmpEq name gpName then pure true else strcmpEq name gnuLocalGpName

theorem compareGp_of_comparable {name : List U8} (h : Comparable name) :
    ∃ found, compareGp name = .ok found ∧ (found = true ↔ IsGpName name) := by
  obtain ⟨same, hsame, hiff⟩ := strcmpEq_of_not_prefix h.1
  obtain ⟨same', hsame', hiff'⟩ := strcmpEq_of_not_prefix h.2
  unfold compareGp IsGpName
  rw [hsame, ok_bind, hsame', ← hiff, ← hiff']
  cases same with
  | true => exact ⟨true, rfl, by simp⟩
  | false => exact ⟨same', rfl, by simp⟩

theorem compareGp_of_not_comparable {name : List U8} (h : ¬ Comparable name) :
    compareGp name = .error .overrun := by
  unfold compareGp
  by_cases hgp : name <+: gpName
  · rw [strcmpEq_overrun hgp, error_bind]
  · -- A beginning of the second literal is not the first one.
    have hlocal : name <+: gnuLocalGpName := by
      by_contra hlocal
      exact h ⟨hgp, hlocal⟩
    obtain ⟨same, hsame, hiff⟩ := strcmpEq_of_not_prefix hgp
    have hfalse : same = false := by
      by_contra htrue
      rw [Bool.not_eq_false] at htrue
      exact absurd ((hiff.mp htrue).trans hlocal) (by decide)
    rw [hsame, hfalse, ok_bind]
    exact strcmpEq_overrun hlocal

/-! ### The search for `_gp` -/

section Search

variable {elf : List U8} {shdr : List Elf32Shdr}

/-- The names of the symbols of a table. -/
def namesOf (strings : List U8) (symbols : List Elf32Sym) : List (List U8) :=
  symbols.map fun symbol => strings.drop symbol.stName.toNat

/-- The search takes a name of a table: none before it is one it looks for. -/
def Takes (names : List (List U8)) (name : List U8) : Prop :=
  ∃ before, Reached (fun name => ¬ IsGpName name) names before name

theorem forall_takes_iff {names : List (List U8)} {P : List U8 → Prop} :
    (∀ name, Takes names name → P name) ↔
      ∀ before name, Reached (fun name => ¬ IsGpName name) names before name → P name :=
  ⟨fun h before name hname => h name ⟨before, hname⟩, fun h name ⟨before, hname⟩ =>
    h before name hname⟩

theorem forall_takes_cons {name : List U8} {names : List (List U8)} {P : List U8 → Prop} :
    (∀ n, Takes (name :: names) n → P n) ↔
      P name ∧ (¬ IsGpName name → ∀ n, Takes names n → P n) := by
  rw [forall_takes_iff, forall_takes_iff]
  exact forall_reached_cons

theorem findGp_cons (strings : List U8) (symbol : Elf32Sym) (symbols : List Elf32Sym) :
    findGp strings (symbol :: symbols) =
      (compareGp (strings.drop symbol.stName.toNat) >>= fun found =>
        if found then .ok (some symbol.stValue) else findGp strings symbols) := by
  rw [findGp]
  unfold compareGp
  cases strcmpEq (strings.drop symbol.stName.toNat) gpName with
  | error e => rfl
  | ok same => cases same <;> rfl

/-- The search in one table. -/
theorem findGp_cases (strings : List U8) (symbols : List Elf32Sym) :
    ((∀ name, Takes (namesOf strings symbols) name → Comparable name) ∧
      ∃ found, findGp strings symbols = .ok found ∧
        (found = none ↔ ∀ name ∈ namesOf strings symbols, ¬ IsGpName name)) ∨
    (¬ (∀ name, Takes (namesOf strings symbols) name → Comparable name) ∧
      findGp strings symbols = .error .overrun) := by
  induction symbols with
  | nil =>
      refine .inl ⟨?_, none, rfl, ?_⟩
      · rintro name ⟨before, hname⟩
        exact absurd hname not_reached_nil
      · simp [namesOf]
  | cons symbol symbols ih =>
      have hnames : namesOf strings (symbol :: symbols)
          = strings.drop symbol.stName.toNat :: namesOf strings symbols := rfl
      rw [hnames, forall_takes_cons, findGp_cons, List.forall_mem_cons]
      generalize strings.drop symbol.stName.toNat = name
      by_cases hcomparable : Comparable name
      · obtain ⟨found, hfound, hiff⟩ := compareGp_of_comparable hcomparable
        rw [hfound, ok_bind]
        cases found with
        | true =>
            -- A match ends the search, so the names after it are not taken.
            have hgp : IsGpName name := hiff.mp rfl
            exact .inl ⟨⟨hcomparable, fun h => absurd hgp h⟩, _, rfl, by simp [hgp]⟩
        | false =>
            have hgp : ¬ IsGpName name := fun h => absurd (hiff.mpr h) (by decide)
            rcases ih with ⟨hrest, found, hfound, hnone⟩ | ⟨hrest, hfails⟩
            · exact .inl ⟨⟨hcomparable, fun _ => hrest⟩, found, hfound,
                by rw [hnone, and_iff_right hgp]⟩
            · exact .inr ⟨fun h => hrest (h.2 hgp), hfails⟩
      · rw [compareGp_of_not_comparable hcomparable, error_bind]
        exact .inr ⟨fun h => hcomparable h.1, rfl⟩

/-- The names in a symbol table, if its string table is a header and both are in the file. -/
def tableNames (elf : List U8) (shdr : List Elf32Shdr) (symtabHdr : Elf32Shdr) :
    Option (List (List U8)) :=
  match shdr[symtabHdr.shLink.toNat]? with
  | none => none
  | some strtabHdr =>
      match loaderLoadSymbols elf symtabHdr strtabHdr with
      | .error _ => none
      | .ok (symbols, strings) => some (namesOf strings symbols)

/-- The search goes on past a header that is no symbol table, or one that is in the file and
has none of the names. -/
def TablePasses (elf : List U8) (shdr : List Elf32Shdr) (symtabHdr : Elf32Shdr) : Prop :=
  symtabHdr.shType = SHT_SYMTAB →
    ∃ names, tableNames elf shdr symtabHdr = some names ∧ ∀ name ∈ names, ¬ IsGpName name

/-- `sh_link` is a header, and every name that is taken is comparable. -/
structure TableSafe (elf : List U8) (shdr : List Elf32Shdr) (symtabHdr : Elf32Shdr) : Prop where
  link : symtabHdr.shLink.toNat < shdr.length
  comparable : ∀ names, tableNames elf shdr symtabHdr = some names →
    ∀ name, Takes names name → Comparable name

/-- A symbol table with one of the names. -/
def HasGp (elf : List U8) (shdr : List Elf32Shdr) (symtabHdr : Elf32Shdr) : Prop :=
  symtabHdr.shType = SHT_SYMTAB ∧
    ∃ names, tableNames elf shdr symtabHdr = some names ∧ ∃ name ∈ names, IsGpName name

/-- Every symbol table that the search gets to is safe. -/
def TablesSafe (elf : List U8) (shdr rest : List Elf32Shdr) : Prop :=
  ∀ before symtabHdr, Reached (TablePasses elf shdr) rest before symtabHdr →
    symtabHdr.shType = SHT_SYMTAB → TableSafe elf shdr symtabHdr

/-- The search gets to a table with one of the names. -/
def GpFound (elf : List U8) (shdr rest : List Elf32Shdr) : Prop :=
  ∃ before symtabHdr, Reached (TablePasses elf shdr) rest before symtabHdr ∧
    HasGp elf shdr symtabHdr

theorem tablesSafe_cons {symtabHdr : Elf32Shdr} {rest : List Elf32Shdr} :
    TablesSafe elf shdr (symtabHdr :: rest) ↔
      (symtabHdr.shType = SHT_SYMTAB → TableSafe elf shdr symtabHdr) ∧
        (TablePasses elf shdr symtabHdr → TablesSafe elf shdr rest) :=
  forall_reached_cons

theorem gpFound_cons {symtabHdr : Elf32Shdr} {rest : List Elf32Shdr} :
    GpFound elf shdr (symtabHdr :: rest) ↔ HasGp elf shdr symtabHdr ∨
      TablePasses elf shdr symtabHdr ∧ GpFound elf shdr rest :=
  exists_reached_cons

/-- A read from the file fails by an abort. -/
theorem freadAll_error {offset size : Nat} {e : Fault} (h : freadAll elf offset size = .error e) :
    e = .abort := by
  unfold freadAll at h
  dsimp only at h
  split_ifs at h
  cases h
  rfl

theorem loaderLoadSymbols_error {symtabHdr strtabHdr : Elf32Shdr} {e : Fault}
    (h : loaderLoadSymbols elf symtabHdr strtabHdr = .error e) : e = .abort := by
  rcases bind_eq_error.mp h with h | ⟨symbols, -, h⟩
  · exact freadAll_error h
  · rcases bind_eq_error.mp h with h | ⟨strings, -, h⟩
    · exact freadAll_error h
    · cases h

/-- Past a header, the rest decides. -/
theorem Ends.table_cons {s : Machine} {symtabHdr : Elf32Shdr} {rest : List Elf32Shdr}
    (hpass : TablePasses elf shdr symtabHdr) (hgp : ¬ HasGp elf shdr symtabHdr)
    (hsafe : symtabHdr.shType = SHT_SYMTAB → TableSafe elf shdr symtabHdr)
    (hloop : loadGpLoop elf shdr s (symtabHdr :: rest) = loadGpLoop elf shdr s rest)
    (hrest : Ends (TablesSafe elf shdr rest) (GpFound elf shdr rest)
      (loadGpLoop elf shdr s rest)) :
    Ends (TablesSafe elf shdr (symtabHdr :: rest)) (GpFound elf shdr (symtabHdr :: rest))
      (loadGpLoop elf shdr s (symtabHdr :: rest)) := by
  refine hrest.congr ?_ ?_ hloop
  · rw [tablesSafe_cons, and_iff_right hsafe, forall_prop_of_true hpass]
  · rw [gpFound_cons, or_iff_right hgp, and_iff_right hpass]

/-- A symbol table, its string table and the search in it. -/
theorem loadGpLoop_symtab (elf : List U8) (s : Machine) {symtabHdr strtabHdr : Elf32Shdr}
    (rest : List Elf32Shdr)
    (htype : symtabHdr.shType = SHT_SYMTAB)
    (hlink : shdr[symtabHdr.shLink.toNat]? = some strtabHdr) :
    loadGpLoop elf shdr s (symtabHdr :: rest) =
      (loaderLoadSymbols elf symtabHdr strtabHdr >>= fun r => findGp r.2 r.1 >>= fun found =>
        match found with
        | some value => .ok (s.setReg MIPS_R_GP value)
        | none => loadGpLoop elf shdr s rest) := by
  rw [loadGpLoop, if_neg (not_not.mpr htype)]
  simp only [hlink]
  rfl

/-- A symbol table that is read, by what the search finds in it. -/
theorem Ends.table_names {s : Machine} {symtabHdr strtabHdr : Elf32Shdr}
    {rest : List Elf32Shdr} {symbols : List Elf32Sym} {strings : List U8}
    (htype : symtabHdr.shType = SHT_SYMTAB)
    (hlink : shdr[symtabHdr.shLink.toNat]? = some strtabHdr)
    (hsymbols : loaderLoadSymbols elf symtabHdr strtabHdr = .ok (symbols, strings))
    (hrest : Ends (TablesSafe elf shdr rest) (GpFound elf shdr rest)
      (loadGpLoop elf shdr s rest)) :
    Ends (TablesSafe elf shdr (symtabHdr :: rest)) (GpFound elf shdr (symtabHdr :: rest))
      (loadGpLoop elf shdr s (symtabHdr :: rest)) := by
  have hnames : tableNames elf shdr symtabHdr = some (namesOf strings symbols) := by
    unfold tableNames
    simp only [hlink, hsymbols]
  have hpass : TablePasses elf shdr symtabHdr ↔
      ∀ name ∈ namesOf strings symbols, ¬ IsGpName name := by
    simp [TablePasses, htype, hnames]
  have hloop := loadGpLoop_symtab elf s rest htype hlink
  rw [hsymbols, ok_bind] at hloop
  rcases findGp_cases strings symbols with ⟨hcomparable, found, hfound, hnone⟩ | ⟨hnot, hfails⟩
  · have hsafe : TableSafe elf shdr symtabHdr := by
      refine ⟨(List.getElem?_eq_some_iff.mp hlink).1, fun names h => ?_⟩
      cases hnames.symm.trans h
      exact hcomparable
    rw [hfound, ok_bind] at hloop
    cases found with
    | none =>
        have hall := hnone.mp rfl
        refine .table_cons (hpass.mpr hall) ?_ (fun _ => hsafe) hloop hrest
        rintro ⟨-, names, h, name, hname, hgp⟩
        cases hnames.symm.trans h
        exact hall name hname hgp
    | some value =>
        -- The search ends here: the tables behind this one are not reached.
        have hsome : ¬ ∀ name ∈ namesOf strings symbols, ¬ IsGpName name :=
          fun h => absurd (hnone.mpr h) (by simp)
        refine .completes (tablesSafe_cons.mpr ⟨fun _ => hsafe, fun h => ?_⟩) ?_ _ hloop
        · exact absurd (hpass.mp h) hsome
        · refine gpFound_cons.mpr (.inl ⟨htype, _, hnames, ?_⟩)
          by_contra hno
          exact hsome fun name hname hgp => hno ⟨name, hname, hgp⟩
  · rw [hfails, error_bind] at hloop
    refine .fails (fun h => hnot ?_) .overrun hloop (by decide)
    exact ((tablesSafe_cons.mp h).1 htype).comparable _ hnames

/-- The search completes when it gets to one of the names, if the tables it gets to are safe. -/
theorem loadGpLoop_ends (elf : List U8) (shdr : List Elf32Shdr) (s : Machine)
    (rest : List Elf32Shdr) :
    Ends (TablesSafe elf shdr rest) (GpFound elf shdr rest) (loadGpLoop elf shdr s rest) := by
  induction rest with
  | nil =>
      refine .aborts (fun _ _ h => absurd h not_reached_nil) ?_ rfl
      rintro ⟨before, symtabHdr, h, -⟩
      exact not_reached_nil h
  | cons symtabHdr rest ih =>
      by_cases htype : symtabHdr.shType = SHT_SYMTAB
      · cases hlink : shdr[symtabHdr.shLink.toNat]? with
        | none =>
            refine .fails (fun h => ?_) .overrun ?_ (by decide)
            · have hlt := ((tablesSafe_cons.mp h).1 htype).link
              rw [List.getElem?_eq_none_iff] at hlink
              omega
            · rw [loadGpLoop, if_neg (not_not.mpr htype), hlink]
        | some strtabHdr =>
            cases hsymbols : loaderLoadSymbols elf symtabHdr strtabHdr with
            | ok r => exact .table_names htype hlink hsymbols ih
            | error e =>
                -- The table or its strings are not all in the file: the loader stops.
                have hnames : tableNames elf shdr symtabHdr = none := by
                  unfold tableNames
                  simp only [hlink, hsymbols]
                have hpass : ¬ TablePasses elf shdr symtabHdr := by
                  simp [TablePasses, htype, hnames]
                have hlt := (List.getElem?_eq_some_iff.mp hlink).1
                refine .aborts (tablesSafe_cons.mpr ⟨fun _ => ⟨hlt, ?_⟩, fun h => absurd h hpass⟩)
                  ?_ ?_
                · simp [hnames]
                · simp [gpFound_cons, HasGp, hnames, hpass]
                · rw [loadGpLoop_symtab elf s rest htype hlink, hsymbols, error_bind,
                    loaderLoadSymbols_error hsymbols]
      · exact .table_cons (fun h => absurd h htype) (fun h => htype h.1) (fun h => absurd h htype)
          (if_pos htype) ih

end Search

/-! ### The loader -/

/-- The search takes the name of a symbol. -/
def TakesName (elf : List U8) (shdr : List Elf32Shdr) (name : List U8) : Prop :=
  ∃ before symtabHdr names, Reached (TablePasses elf shdr) shdr before symtabHdr ∧
    symtabHdr.shType = SHT_SYMTAB ∧ tableNames elf shdr symtabHdr = some names ∧ Takes names name

/-- What a loader that has completed kept to. -/
structure Consistent (elf : List U8) (fresh : Nat → Nat → U8) (ehdr : Elf32Ehdr)
    (phdrs : List Elf32Phdr) (shdr : List Elf32Shdr) : Prop where
  /-- Every string table is a section header. -/
  link : ∀ before symtabHdr, Reached (TablePasses elf shdr) shdr before symtabHdr →
    symtabHdr.shType = SHT_SYMTAB → symtabHdr.shLink.toNat < ehdr.eShnum.toNat
  /-- Every name that was taken has its terminator in the string section. -/
  name : ∀ name, TakesName elf shdr name → 0 ∈ name
  /-- What was read fits in the transfer buffer. -/
  placed : ∀ phdr ∈ loads phdrs,
    (fread elf phdr.pOffset.toNat phdr.pFilesz.toNat).length ≤ phdr.pMemsz.toNat
  /-- A segment was mapped before it was written. -/
  mapped : ∀ before phdr after memory, phdrs = before ++ phdr :: after → phdr.pType = PT_LOAD →
    loaderLoadSegments elf fresh 0 before Machine.initial.memory = .ok memory →
    MappedRange (segmentMemory memory phdr) phdr.pVaddr phdr.pMemsz.toNat

/-- The loader stops through an error path, or completes without acting on an inconsistency. -/
def LoadsConsistently (elf : List U8) (fresh : Nat → Nat → U8) : Prop :=
  loaderElf elf fresh .initial = .error .abort ∨
    ∃ ehdr phdrs shdr s, loaderLoadEhdr elf = .ok ehdr ∧ loaderLoadPhdr elf ehdr = .ok phdrs ∧
      loaderLoadShdr elf ehdr = .ok shdr ∧ loaderElf elf fresh .initial = .ok s ∧
      Consistent elf fresh ehdr phdrs shdr

/-- The tables that the search gets to are safe, and if it finds one of the names, every name
it takes up to there is terminated. -/
structure GpSafe (elf : List U8) (shdr : List Elf32Shdr) : Prop where
  tables : TablesSafe elf shdr shdr
  terminated : GpFound elf shdr shdr → ∀ name, TakesName elf shdr name → 0 ∈ name

/-- If the headers are accepted, the segments are safe up to one that is not in the file, and if
all of them are, so is the search for `_gp`. -/
def SafeFile (elf : List U8) : Prop :=
  ∀ ehdr phdrs shdr, loaderLoadEhdr elf = .ok ehdr → loaderLoadPhdr elf ehdr = .ok phdrs →
    loaderLoadShdr elf ehdr = .ok shdr →
    SegmentsSafe elf [] phdrs ∧ ((∀ phdr ∈ phdrs, SegmentPasses elf phdr) → GpSafe elf shdr)

section Loader

variable {elf : List U8} {fresh : Nat → Nat → U8} {ehdr : Elf32Ehdr} {phdrs : List Elf32Phdr}
  {shdr : List Elf32Shdr}

theorem loaderLoadEhdr_error {e : Fault} (h : loaderLoadEhdr elf = .error e) : e = .abort := by
  rcases bind_eq_error.mp h with h | ⟨bytes, -, h⟩
  · exact freadAll_error h
  · dsimp only at h
    split_ifs at h <;> cases h <;> rfl

theorem loaderLoadPhdr_error {e : Fault} (h : loaderLoadPhdr elf ehdr = .error e) :
    e = .abort := by
  rcases bind_eq_error.mp h with h | ⟨bytes, -, h⟩
  · exact freadAll_error h
  · cases h

theorem loaderLoadShdr_error {e : Fault} (h : loaderLoadShdr elf ehdr = .error e) :
    e = .abort := by
  rcases bind_eq_error.mp h with h | ⟨bytes, -, h⟩
  · exact freadAll_error h
  · cases h

theorem length_loaderLoadShdr (h : loaderLoadShdr elf ehdr = .ok shdr) :
    shdr.length = ehdr.eShnum.toNat := by
  obtain ⟨bytes, -, h⟩ := bind_eq_ok.mp h
  cases h
  simp [arrayOf]

/-- With headers that are accepted: the segments, the search and the stack. -/
theorem loaderElf_of_headers (fresh : Nat → Nat → U8) (hehdr : loaderLoadEhdr elf = .ok ehdr)
    (hphdr : loaderLoadPhdr elf ehdr = .ok phdrs) (hshdr : loaderLoadShdr elf ehdr = .ok shdr) :
    loaderElf elf fresh .initial =
      (loaderLoadSegments elf fresh 0 phdrs Machine.initial.memory >>= fun memory =>
        loadGpLoop elf shdr (loaderLoadPc (Machine.initial.setMemory memory) ehdr) shdr
          >>= fun s => loaderLoadSp s ehdr) := by
  unfold loaderElf
  rw [hehdr, ok_bind, hphdr, ok_bind, hshdr, ok_bind]
  rfl

theorem mapped_initial (b : U32) : Mapped Machine.initial.memory b ↔ CoveredBy [] b := by
  simp [Mapped, flat, pageAt, Machine.initial, memoryCreate, Memory.empty, CoveredBy, loads]

/-- A loader that completes over safe tables has kept to them, up to the names. -/
theorem consistent_iff (hshdr : loaderLoadShdr elf ehdr = .ok shdr)
    (hsegments : SegmentsSafe elf [] phdrs) (hpass : ∀ phdr ∈ phdrs, SegmentPasses elf phdr)
    (htables : TablesSafe elf shdr shdr) :
    Consistent elf fresh ehdr phdrs shdr ↔ ∀ name, TakesName elf shdr name → 0 ∈ name := by
  refine ⟨fun h => h.name, fun hnames => ?_⟩
  -- Every segment is reached.
  have hsafe : ∀ before phdr after, phdrs = before ++ phdr :: after → phdr.pType = PT_LOAD →
      SegmentSafe elf before phdr := by
    intro before phdr after hsplit hload
    have hreached : Reached (SegmentPasses elf) phdrs before phdr :=
      ⟨⟨after, hsplit⟩, fun q hq => hpass q (by simp [hsplit, hq])⟩
    exact hsegments before phdr hreached hload
  constructor
  case link =>
    intro before symtabHdr hreached htype
    rw [← length_loaderLoadShdr hshdr]
    exact (htables before symtabHdr hreached htype).link
  case name => exact hnames
  case placed =>
    intro phdr hphdr
    obtain ⟨hmem, hload⟩ := List.mem_filter.mp hphdr
    obtain ⟨before, after, hsplit⟩ := List.append_of_mem hmem
    rw [length_fread_eq]
    exact (hsafe before phdr after hsplit (of_decide_eq_true hload)).placed
  case mapped =>
    intro before phdr after memory hsplit hload hbefore
    have hdone : ∀ b, Mapped memory b ↔ CoveredBy before b := by
      intro b
      exact loaderLoadSegments_mapped mapped_initial hbefore b
    have hfits := (segmentSafe_iff hdone hload).mp (hsafe before phdr after hsplit hload)
    exact hfits.mapped (hpass phdr (by simp [hsplit]) hload)

theorem safeFile_iff (hehdr : loaderLoadEhdr elf = .ok ehdr)
    (hphdr : loaderLoadPhdr elf ehdr = .ok phdrs) (hshdr : loaderLoadShdr elf ehdr = .ok shdr) :
    SafeFile elf ↔ SegmentsSafe elf [] phdrs ∧
      ((∀ phdr ∈ phdrs, SegmentPasses elf phdr) → GpSafe elf shdr) := by
  refine ⟨fun h => h ehdr phdrs shdr hehdr hphdr hshdr, ?_⟩
  intro h ehdr' phdrs' shdr' hehdr' hphdr' hshdr'
  cases hehdr.symm.trans hehdr'
  cases hphdr.symm.trans hphdr'
  cases hshdr.symm.trans hshdr'
  exact h

/-- A loader that completes. -/
theorem loadsConsistently_of_ok (hehdr : loaderLoadEhdr elf = .ok ehdr)
    (hphdr : loaderLoadPhdr elf ehdr = .ok phdrs) (hshdr : loaderLoadShdr elf ehdr = .ok shdr)
    {s : Machine} (hload : loaderElf elf fresh .initial = .ok s) :
    LoadsConsistently elf fresh ↔ Consistent elf fresh ehdr phdrs shdr := by
  constructor
  · rintro (habort | ⟨ehdr', phdrs', shdr', s', hehdr', hphdr', hshdr', -, h⟩)
    · cases hload.symm.trans habort
    · cases hehdr.symm.trans hehdr'
      cases hphdr.symm.trans hphdr'
      cases hshdr.symm.trans hshdr'
      exact h
  · exact fun h => .inr ⟨ehdr, phdrs, shdr, s, hehdr, hphdr, hshdr, hload, h⟩

/-- A loader that fails, and not by an abort. -/
theorem not_loadsConsistently {e : Fault} (hload : loaderElf elf fresh .initial = .error e)
    (he : e ≠ .abort) : ¬ LoadsConsistently elf fresh := by
  rintro (habort | ⟨-, -, -, s, -, -, -, hok, -⟩)
  · cases hload.symm.trans habort
    exact he rfl
  · cases hload.symm.trans hok

/-- With headers that are accepted. -/
theorem loadsConsistently_iff_of_headers (hehdr : loaderLoadEhdr elf = .ok ehdr)
    (hphdr : loaderLoadPhdr elf ehdr = .ok phdrs) (hshdr : loaderLoadShdr elf ehdr = .ok shdr) :
    LoadsConsistently elf fresh ↔ SafeFile elf := by
  have hload := loaderElf_of_headers fresh hehdr hphdr hshdr
  rw [safeFile_iff hehdr hphdr hshdr]
  rcases loaderLoadSegments_ends elf fresh phdrs 0 mapped_initial with
    ⟨hsegments, hpass, memory, hmemory⟩ | ⟨hsegments, hpass, habort⟩ | ⟨hsegments, e, hfails, he⟩
  · rw [hmemory, ok_bind] at hload
    rcases loadGpLoop_ends elf shdr
        (loaderLoadPc (Machine.initial.setMemory memory) ehdr) shdr with
      ⟨htables, hfound, s, hgp⟩ | ⟨htables, hfound, habort⟩ | ⟨htables, e, hfails, he⟩
    · -- The loader completes, since the stack never fails.
      obtain ⟨s', hsp, -⟩ := loaderLoadSp_eq s ehdr
      rw [hgp, ok_bind, hsp] at hload
      rw [loadsConsistently_of_ok hehdr hphdr hshdr hload,
        consistent_iff hshdr hsegments hpass htables]
      constructor
      · exact fun hnames => ⟨hsegments, fun _ => ⟨htables, fun _ => hnames⟩⟩
      · exact fun h => (h.2 hpass).terminated hfound
    · rw [habort, error_bind] at hload
      refine ⟨fun _ => ⟨hsegments, fun _ => ⟨htables, fun h => absurd h hfound⟩⟩, fun _ => ?_⟩
      exact .inl hload
    · rw [hfails, error_bind] at hload
      refine ⟨fun h => absurd h (not_loadsConsistently hload he), fun h => ?_⟩
      exact absurd (h.2 hpass).tables htables
  · rw [habort, error_bind] at hload
    exact ⟨fun _ => ⟨hsegments, fun h => absurd h hpass⟩, fun _ => .inl hload⟩
  · rw [hfails, error_bind] at hload
    exact ⟨fun h => absurd h (not_loadsConsistently hload he), fun h => absurd h.1 hsegments⟩

/-- A file whose headers are not accepted stops the loader, and meets the condition. -/
theorem loadsConsistently_iff_of_rejected (habort : loaderElf elf fresh .initial = .error .abort)
    (hnone : ∀ ehdr phdrs shdr, loaderLoadEhdr elf = .ok ehdr →
      loaderLoadPhdr elf ehdr = .ok phdrs → loaderLoadShdr elf ehdr ≠ .ok shdr) :
    LoadsConsistently elf fresh ↔ SafeFile elf := by
  constructor
  · intro _ ehdr phdrs shdr hehdr hphdr hshdr
    exact absurd hshdr (hnone ehdr phdrs shdr hehdr hphdr)
  · exact fun _ => .inl habort

end Loader

/-- The loader aborts or completes consistently exactly on the files that are safe. -/
theorem loader_consistent_iff (elf : List U8) (fresh : Nat → Nat → U8) :
    LoadsConsistently elf fresh ↔ SafeFile elf := by
  cases hehdr : loaderLoadEhdr elf with
  | error e =>
      apply loadsConsistently_iff_of_rejected
      · unfold loaderElf
        rw [hehdr, error_bind, loaderLoadEhdr_error hehdr]
      · intro ehdr phdrs shdr hok
        cases hehdr.symm.trans hok
  | ok ehdr =>
      cases hphdr : loaderLoadPhdr elf ehdr with
      | error e =>
          apply loadsConsistently_iff_of_rejected
          · unfold loaderElf
            rw [hehdr, ok_bind, hphdr, error_bind, loaderLoadPhdr_error hphdr]
          · intro ehdr' phdrs shdr hok hok'
            cases hehdr.symm.trans hok
            cases hphdr.symm.trans hok'
      | ok phdrs =>
          cases hshdr : loaderLoadShdr elf ehdr with
          | error e =>
              apply loadsConsistently_iff_of_rejected
              · unfold loaderElf
                rw [hehdr, ok_bind, hphdr, ok_bind, hshdr, error_bind, loaderLoadShdr_error hshdr]
              · intro ehdr' phdrs' shdr hok hok' hok''
                cases hehdr.symm.trans hok
                cases hshdr.symm.trans hok''
          | ok shdr => exact loadsConsistently_iff_of_headers hehdr hphdr hshdr

/-- A file with one segment, given by its header, and one symbol table whose strings are in
section `link`. -/
def elfWith (phdr : List U32) (link : U32) : List U8 :=
  let ehdr : List U32 := [0x464c457f, 0x00000101, 0, 0, 0x00080002, 1, 0x400000, 52, 84, 0,
    0x00200034, 0x00280001, 2]
  let symtab : List U32 := [0, SHT_SYMTAB, 0, 0, 164, 16, link, 0, 4, 16]
  let strtab : List U32 := [0, 3, 0, 0, 180, 4, 0, 0, 1, 0]
  let symbol : List U32 := [0, 0x408000, 0, 0]
  let name : List U32 := [0x0070675f]
  let code : List U32 := [0x24020fa1, 0x0000000c]
  (ehdr ++ phdr ++ symtab ++ strtab ++ symbol ++ name ++ code).flatMap wordBytes

/-- 8 bytes are read into a buffer of 4; a segment that passes `2 ^ 32` is written unmapped; the
strings are taken from a header past the last one. -/
theorem loader_acts_on_inconsistent :
    ¬ LoadsConsistently (elfWith [PT_LOAD, 184, 0x400000, 0x400000, 8, 4, 5, 4] 1) (fun _ _ => 0) ∧
    ¬ LoadsConsistently (elfWith [PT_LOAD, 184, 0xfffffffc, 0xfffffffc, 8, 8, 5, 4] 1)
      (fun _ _ => 0) ∧
    ¬ LoadsConsistently (elfWith [PT_LOAD, 184, 0x400000, 0x400000, 8, 8, 5, 4] 2)
      (fun _ _ => 0) := by
  have hfails : ∀ elf, errorWith (· ≠ .abort) (loaderElf elf (fun _ _ => 0) .initial) = true →
      ¬ LoadsConsistently elf (fun _ _ => 0) := by
    intro elf hcheck
    obtain ⟨e, hload, he⟩ := errorWith_eq_true.mp hcheck
    exact not_loadsConsistently hload (of_decide_eq_true he)
  exact ⟨hfails _ (by decide +kernel), hfails _ (by decide +kernel), hfails _ (by decide +kernel)⟩

end MipsEngines
