import Mathlib.Tactic.IntervalCases
import MipsEngines.Proofs.AddressSpace
import MipsEngines.Proofs.WordAccess

/-!
# `MipsEngines.Proofs.InitialStack`: the stack that `loader_load_sp` builds

The stack is written downward, a word at a time, and read upward. `pushes_eq` is the loop of
pushes: the words lie in memory in reverse, from the final `SP` on. `loaderLoadSp_eq` puts the
pieces together, and from it every word and every byte of the image is read back
(`stack_words`, `stack_strings`).

The image is no System V process image: the name is copied without its terminator and the
random bytes follow it, so `argv[0]` is no string `"emulator"`
(`initial_stack_no_process_image`).
-/

set_option autoImplicit false

namespace MipsEngines

open Lib

/-! ### Bytes of a range -/

/-- A cell in a range that is written. -/
theorem write_rangeData_of_lt {s : Store U32 U8} {a b : U32} {n : Nat} {bytes : Nat → U8}
    (hmapped : (s b).isSome) (hb : (b - a).toNat < n) :
    s.write (rangeData a n bytes) b = some (bytes (b - a).toNat) := by
  obtain ⟨byte, hbyte⟩ := Option.isSome_iff_exists.mp hmapped
  simp only [Store.write, rangeData, hbyte, if_pos hb, Option.map_some, Option.getD_some]

/-- A cell outside. -/
theorem write_rangeData_of_le {s : Store U32 U8} {a b : U32} {n : Nat} {bytes : Nat → U8}
    (hb : n ≤ (b - a).toNat) : s.write (rangeData a n bytes) b = s b := by
  simp only [Store.write, rangeData, if_neg (Nat.not_lt.mpr hb), Option.getD_none, Option.map_id']

/-- A word is the bytes it is stored as. -/
theorem byteOf_append (v : U32) : byteOf v 3 ++ byteOf v 2 ++ byteOf v 1 ++ byteOf v 0 = v := by
  apply BitVec.eq_of_getLsbD_eq
  intro i hi
  simp only [byteOf, BitVec.getLsbD_append, BitVec.getLsbD_extractLsb']
  grind

theorem memoryReadU32_of_bytes {memory : Memory} {a v : U32} (haligned : a.toNat % 4 = 0)
    (h : ∀ i < 4, flat memory (a + BitVec.ofNat 32 i) = some (byteOf v i)) :
    memoryReadU32 memory a = .ok v := by
  have h₀ : flat memory a = some (byteOf v 0) := by simpa using h 0 (by decide)
  rw [memoryReadU32_eq haligned h₀ (h 1 (by decide)) (h 2 (by decide)) (h 3 (by decide)),
    byteOf_append]

/-! ### Pushes -/

/-- Byte `i` of words laid out from the first on. -/
def wordsByte (words : List U32) (i : Nat) : U8 := byteOf (words.getD (i / 4) 0) (i % 4)

/-- A word below the ones that are there. -/
theorem rangeData_words (a : U32) (words : List U32) (w : U32)
    (h : 4 * words.length + 4 ≤ 2 ^ 32) :
    (fun b => (rangeData a (4 * words.length) (wordsByte words) b).or
      (rangeData (a + BitVec.ofNat 32 (4 * words.length)) 4 (byteOf w) b))
      = rangeData a (4 * (words ++ [w]).length) (wordsByte (words ++ [w])) := by
  funext b
  rw [rangeData_add a _ h, List.length_append, List.length_singleton, Nat.mul_add]
  unfold rangeData wordsByte
  by_cases hlow : (b - a).toNat < 4 * words.length
  · rw [if_pos hlow, if_neg (by omega), Option.or_none, if_pos (by omega),
      List.getD_append _ _ _ _ (by omega)]
  · rw [if_neg hlow, Option.none_or]
    by_cases hhigh : (b - a).toNat < 4 * words.length + 4 * 1
    · -- The new word is the last one.
      have hindex : (b - a).toNat / 4 = words.length := by omega
      rw [if_pos (by omega), if_pos hhigh, hindex, List.getD_append_right _ _ _ _ (Nat.le_refl _),
        Nat.sub_self]
      congr 2
      omega
    · rw [if_neg (by omega), if_neg hhigh]

/-- The pushes: each word goes below the one before. -/
theorem pushes_eq (words : List U32) {s : Machine} {base : U32}
    (hsp : s.reg MIPS_R_SP = base + BitVec.ofNat 32 (4 * words.length))
    (hlength : 4 * words.length ≤ 2 ^ 32) (haligned : base.toNat % 4 = 0)
    (hmapped : MappedRange s.memory base (4 * words.length)) :
    ∃ s', words.foldlM pushU32 s = .ok s' ∧ s'.reg MIPS_R_SP = base ∧
      flat s'.memory =
        (flat s.memory).write (rangeData base (4 * words.length) (wordsByte words.reverse)) := by
  induction words generalizing s with
  | nil =>
      refine ⟨s, rfl, by simpa using hsp, ?_⟩
      funext b
      simp [Store.write, rangeData_zero]
  | cons w words ih =>
      rw [List.length_cons] at hsp hlength hmapped
      have hbase := base.isLt
      -- The first push.
      have hnext : s.reg MIPS_R_SP - 4 = base + BitVec.ofNat 32 (4 * words.length) := by
        rw [hsp, Nat.mul_add, BitVec.ofNat_add, ← BitVec.add_assoc]
        exact BitVec.add_sub_cancel _ _
      have htop : (base + BitVec.ofNat 32 (4 * words.length)).toNat % 4 = 0 := by
        rw [BitVec.toNat_add, BitVec.toNat_ofNat]
        omega
      obtain ⟨memory, hstore, hflat⟩ := memoryStore_aligned (byteOf w)
        (hmapped (4 * words.length) (by omega)) (.inr (.inr rfl)) htop
      have hpush : pushU32 s w = .ok ((s.setReg MIPS_R_SP
          (base + BitVec.ofNat 32 (4 * words.length))).setMemory memory) := by
        unfold pushU32
        rw [hnext]
        exact bind_eq_ok.mpr ⟨memory, hstore, rfl⟩
      -- The others.
      have hrest : MappedRange memory base (4 * words.length) := by
        intro i hi
        rw [Mapped.write hflat]
        exact hmapped i (by omega)
      obtain ⟨s', hfold, hsp', hflat'⟩ := ih (s := (s.setReg MIPS_R_SP
        (base + BitVec.ofNat 32 (4 * words.length))).setMemory memory) rfl (by omega) hrest
      refine ⟨s', ?_, hsp', ?_⟩
      · rw [List.foldlM_cons, hpush, ok_bind, hfold]
      · have hwords := rangeData_words base words.reverse w (by rw [List.length_reverse]; omega)
        rw [List.length_append, List.length_reverse] at hwords
        rw [hflat', List.length_cons, List.reverse_cons]
        show ((flat memory).write _) = _
        rw [hflat, Store.write_write, ← List.length_singleton (a := w), ← hwords]

/-! ### The image -/

/-- Where the random bytes are. -/
abbrev randomPtr : U32 := 0x7ffffff0

/-- Where the name is. -/
abbrev namePtr : U32 := 0x7fffffe8

/-- The final `SP`. -/
abbrev stackPtr : U32 := 0x7fffff98

/-- The words from the final `SP` on: `argc`, `argv`, `envp` and the auxiliary vector. -/
def stackImage (ehdr : Elf32Ehdr) : List U32 :=
  [1, namePtr, 0, 0] ++ (auxv ehdr randomPtr namePtr).flatMap fun aux => [aux.1, aux.2]

theorem reverse_stackWords (ehdr : Elf32Ehdr) :
    (stackWords ehdr randomPtr namePtr).reverse = stackImage ehdr := rfl

/-- A range inside another one. -/
theorem MappedRange.sub {memory : Memory} {a b : U32} {n m : Nat} (h : MappedRange memory a n)
    (hb : (b - a).toNat + m ≤ n) : MappedRange memory b m := by
  intro i hi
  apply h.mapped
  have ha := a.isLt
  have hlt := b.isLt
  rw [BitVec.toNat_sub] at hb ⊢
  rw [BitVec.toNat_add, BitVec.toNat_ofNat]
  omega

theorem MappedRange.write {memory memory' : Memory} {data : U32 → Option U8} {a : U32} {n : Nat}
    (h : MappedRange memory a n) (hflat : flat memory' = (flat memory).write data) :
    MappedRange memory' a n :=
  fun i hi => (Mapped.write hflat).mpr (h i hi)

/-- The bytes of the stack, cleared, with the two strings in it. -/
noncomputable def stackStrings (memory : Memory) : Store U32 U8 :=
  ((((flat memory).allocate 0 (InPages STACK_BOT (STACK_SIZE + 1))).write
    (rangeData STACK_BOT 0x10001 fun _ => 0)).write
      (rangeData randomPtr 16 randomBytes)).write (rangeData namePtr 8 nameBytes)

/-- `loader_load_sp` never fails. -/
theorem loaderLoadSp_eq (s : Machine) (ehdr : Elf32Ehdr) :
    ∃ s', loaderLoadSp s ehdr = .ok s' ∧ s'.reg MIPS_R_SP = stackPtr ∧
      flat s'.memory = (stackStrings s.memory).write
        (rangeData stackPtr 72 (wordsByte (stackImage ehdr))) := by
  have hallocated : MappedRange (memoryAllocate s.memory STACK_BOT (STACK_SIZE + 1)) STACK_BOT
      (STACK_SIZE + 1).toNat := mappedRange_memoryAllocate s.memory (by decide)
  obtain ⟨cleared, hset, hcleared⟩ := memorySet_eq 0 hallocated
  have hstack₁ := hallocated.write hcleared
  have hrandom : MappedRange cleared randomPtr (16 : U32).toNat := hstack₁.sub (by decide)
  obtain ⟨memory₂, hcopy₂, hflat₂⟩ := memoryCopyWrite_eq randomBytes hrandom
  have hstack₂ := hstack₁.write hflat₂
  have hname : MappedRange memory₂ namePtr (8 : U32).toNat := hstack₂.sub (by decide)
  obtain ⟨memory₃, hcopy₃, hflat₃⟩ := memoryCopyWrite_eq nameBytes hname
  -- The pushes start at the name, rounded down to 16 bytes.
  let pushed : Machine := ((((((s.setMemory cleared).setReg MIPS_R_SP STACK_TOP).setReg MIPS_R_SP
    randomPtr).setMemory memory₂).setReg MIPS_R_SP namePtr).setMemory memory₃).setReg MIPS_R_SP
      0x7fffffe0
  have hlength : (stackWords ehdr randomPtr namePtr).length = 18 := rfl
  have hwords : MappedRange pushed.memory stackPtr
      (4 * (stackWords ehdr randomPtr namePtr).length) := by
    rw [hlength]
    exact (hstack₂.write hflat₃).sub (by decide)
  have hsp : pushed.reg MIPS_R_SP
      = stackPtr + BitVec.ofNat 32 (4 * (stackWords ehdr randomPtr namePtr).length) := by
    rw [hlength]
    rfl
  obtain ⟨s', hpushes, hsp', hflat⟩ := pushes_eq (stackWords ehdr randomPtr namePtr) hsp
    (by rw [hlength]; decide) (by decide) hwords
  refine ⟨s', ?_, hsp', ?_⟩
  · have hrandomPtr : STACK_TOP - 16 = randomPtr := by decide
    have hnamePtr : randomPtr - 8 = namePtr := by decide
    have hround : namePtr &&& ~~~0xF = 0x7fffffe0 := by decide
    simp only [loaderLoadSp, hset, ok_bind, Machine.memory_setReg, Machine.memory_setMemory,
      Machine.reg_setReg, Machine.reg_setMemory, if_true, hrandomPtr, hcopy₂, hnamePtr, hcopy₃,
      hround]
    exact hpushes
  · rw [hflat, hlength, reverse_stackWords]
    show (flat memory₃).write _ = _
    rw [hflat₃, hflat₂, hcleared, flat_memoryAllocate]
    rfl

/-! ### Reading the image -/

section Image

variable {memory memory' : Memory} {ehdr : Elf32Ehdr}

/-- The stack is mapped. -/
theorem isSome_stackStrings (memory : Memory) {b : U32} (hb : (b - STACK_BOT).toNat < 0x10001) :
    (stackStrings memory b).isSome := by
  unfold stackStrings
  rw [Store.isSome_write, Store.isSome_write, Store.isSome_write, Store.isSome_allocate]
  exact .inl (inPages_of_sub_lt (by decide) hb)

/-- Word `j` of the image. -/
theorem stack_words (h : flat memory' = (stackStrings memory).write
      (rangeData stackPtr 72 (wordsByte (stackImage ehdr)))) {j : Nat} (hj : j < 18) :
    memoryReadU32 memory' (stackPtr + BitVec.ofNat 32 (4 * j))
      = .ok ((stackImage ehdr).getD j 0) := by
  have haddress : (stackPtr + BitVec.ofNat 32 (4 * j)).toNat = 0x7fffff98 + 4 * j := by
    rw [BitVec.toNat_add, BitVec.toNat_ofNat]
    show (0x7fffff98 + 4 * j % 2 ^ 32) % 2 ^ 32 = _
    omega
  -- Byte `i` of word `j` is byte `4 * j + i` of the image.
  refine memoryReadU32_of_bytes (by omega) fun i hi => ?_
  have hdist : (stackPtr + BitVec.ofNat 32 (4 * j) + BitVec.ofNat 32 i - stackPtr).toNat
      = 4 * j + i := by
    rw [BitVec.add_assoc, ← BitVec.ofNat_add, toNat_add_sub _ (by omega)]
  rw [h, write_rangeData_of_lt, hdist]
  · unfold wordsByte
    rw [show (4 * j + i) / 4 = j by omega, show (4 * j + i) % 4 = i by omega]
  · apply isSome_stackStrings
    rw [BitVec.toNat_sub, BitVec.toNat_add, haddress, BitVec.toNat_ofNat]
    show (2 ^ 32 - 0x7fff0000 + (0x7fffff98 + 4 * j + i % 2 ^ 32) % 2 ^ 32) % 2 ^ 32 < _
    omega
  · rw [hdist]
    omega

/-- The name and the bytes after it. -/
theorem stack_strings (h : flat memory' = (stackStrings memory).write
      (rangeData stackPtr 72 (wordsByte (stackImage ehdr)))) {i : Nat} (hi : i < 24) :
    memoryReadU8 memory' (namePtr + BitVec.ofNat 32 i)
      = .ok (if i < 8 then nameBytes i else randomBytes (i - 8)) := by
  have hname : (namePtr + BitVec.ofNat 32 i - namePtr).toNat = i := toNat_add_sub _ (by omega)
  have haddress : (namePtr + BitVec.ofNat 32 i).toNat = 0x7fffffe8 + i := by
    rw [BitVec.toNat_add, BitVec.toNat_ofNat]
    show (0x7fffffe8 + i % 2 ^ 32) % 2 ^ 32 = _
    omega
  -- The distances from the words, from the random bytes and from the bottom of the stack.
  have hwords : 72 ≤ (namePtr + BitVec.ofNat 32 i - stackPtr).toNat := by
    rw [BitVec.toNat_sub, haddress]
    show _ ≤ (2 ^ 32 - 0x7fffff98 + (0x7fffffe8 + i)) % 2 ^ 32
    omega
  have hrandom : (namePtr + BitVec.ofNat 32 i - randomPtr).toNat
      = (2 ^ 32 - 0x7ffffff0 + (0x7fffffe8 + i)) % 2 ^ 32 := by
    rw [BitVec.toNat_sub, haddress]
    rfl
  have hstack : (namePtr + BitVec.ofNat 32 i - STACK_BOT).toNat < 0x10001 := by
    rw [BitVec.toNat_sub, haddress]
    show (2 ^ 32 - 0x7fff0000 + (0x7fffffe8 + i)) % 2 ^ 32 < _
    omega
  have hmapped := isSome_stackStrings memory hstack
  rw [memoryReadU8_eq_ok, h, write_rangeData_of_le hwords]
  unfold stackStrings at hmapped ⊢
  rw [Store.isSome_write] at hmapped
  by_cases hi' : i < 8
  · rw [write_rangeData_of_lt hmapped (by omega), hname, if_pos hi']
  · rw [Store.isSome_write] at hmapped
    rw [write_rangeData_of_le (by omega), write_rangeData_of_lt hmapped (by omega), hrandom,
      if_neg hi']
    congr 2
    omega

end Image

/-! ### The process image -/

/-- `"emulator"`, without a terminator. -/
abbrev emulatorName : List U8 := [0x65, 0x6d, 0x75, 0x6c, 0x61, 0x74, 0x6f, 0x72]

/-- What a program finds from `sp` on, read upward in the System V layout: one argument, at
`argv0`, no environment, and the auxiliary vector `aux` up to `AT_NULL`. -/
structure StackLayout (memory : Memory) (sp : U32) (ehdr : Elf32Ehdr) (phdrAt argv0 : U32)
    (aux : List (U32 × U32)) (random : U32) : Prop where
  argc : memoryReadU32 memory sp = .ok 1
  argv : memoryReadU32 memory (sp + 4) = .ok argv0
  name : ∀ i < emulatorName.length,
    memoryReadU8 memory (argv0 + BitVec.ofNat 32 i) = .ok (emulatorName.getD i 0)
  argvEnd : memoryReadU32 memory (sp + 8) = .ok 0
  envpEnd : memoryReadU32 memory (sp + 12) = .ok 0
  auxPair : ∀ j pair, aux[j]? = some pair → pair.1 ≠ 0 ∧
    memoryReadU32 memory (sp + BitVec.ofNat 32 (16 + 8 * j)) = .ok pair.1 ∧
    memoryReadU32 memory (sp + BitVec.ofNat 32 (20 + 8 * j)) = .ok pair.2
  auxEnd : memoryReadU32 memory (sp + BitVec.ofNat 32 (16 + 8 * aux.length)) = .ok 0
  phdr : (3, phdrAt) ∈ aux
  phent : (4, ehdr.ePhentsize.setWidth 32) ∈ aux
  phnum : (5, ehdr.ePhnum.setWidth 32) ∈ aux
  randomPtr : (25, random) ∈ aux
  randomBytes : MappedRange memory random 16
  apart : Region.Disjoint ⟨random, 16⟩ ⟨sp, 24 + 8 * aux.length⟩

/-- The name is terminated as well, and its terminator is no random byte. -/
structure ProcessImage (memory : Memory) (sp : U32) (ehdr : Elf32Ehdr) (phdrAt argv0 : U32)
    (aux : List (U32 × U32)) (random : U32) : Prop
    extends StackLayout memory sp ehdr phdrAt argv0 aux random where
  terminated : memoryReadU8 memory (argv0 + 8) = .ok 0
  nameApart : Region.Disjoint ⟨random, 16⟩ ⟨argv0, 9⟩

/-- The auxiliary vector before `AT_NULL`. -/
def auxPairs (ehdr : Elf32Ehdr) : List (U32 × U32) := (auxv ehdr randomPtr namePtr).take 6

section Image

variable {memory memory' : Memory} {ehdr : Elf32Ehdr}

/-- The layout is right, with one value for `AT_PHDR`. -/
theorem stackLayout (h : flat memory' = (stackStrings memory).write
      (rangeData stackPtr 72 (wordsByte (stackImage ehdr)))) :
    StackLayout memory' stackPtr ehdr (0x400000 + ehdr.ePhoff) namePtr (auxPairs ehdr)
      randomPtr where
  argc := stack_words (j := 0) h (by decide)
  argv := stack_words (j := 1) h (by decide)
  name i hi := by
    have hi' : i < 8 := hi
    rw [stack_strings h (by omega), if_pos hi']
  argvEnd := stack_words (j := 2) h (by decide)
  envpEnd := stack_words (j := 3) h (by decide)
  auxPair j pair hpair := by
    have hj : j < 6 := (List.getElem?_eq_some_iff.mp hpair).1
    rw [show 16 + 8 * j = 4 * (4 + 2 * j) by omega, show 20 + 8 * j = 4 * (5 + 2 * j) by omega,
      stack_words h (by omega), stack_words h (by omega)]
    interval_cases j <;> cases hpair <;> exact ⟨by simp, rfl, rfl⟩
  auxEnd := stack_words (j := 16) h (by decide)
  phdr := by simp [auxPairs, auxv]
  phent := by simp [auxPairs, auxv]
  phnum := by simp [auxPairs, auxv]
  randomPtr := by simp [auxPairs, auxv]
  randomBytes i hi := by
    have hbyte := stack_strings h (i := 8 + i) (by omega)
    rw [memoryReadU8_eq_ok, BitVec.ofNat_add, ← BitVec.add_assoc] at hbyte
    exact Option.isSome_of_mem hbyte
  apart := by
    -- The image ends at the name, rounded down, and the random bytes are above it.
    have hbelow : stackPtr.toNat + 72 ≤ randomPtr.toNat := by decide
    apply Region.Disjoint.symm
    exact Region.Disjoint.of_le hbelow (by decide)

end Image

/-- What the loader leaves, up to its last function. -/
theorem loaderLoadSp_of_loaderElf {elf : List U8} {fresh : Nat → Nat → U8} {s : Machine}
    {ehdr : Elf32Ehdr} (hehdr : loaderLoadEhdr elf = .ok ehdr)
    (hload : loaderElf elf fresh .initial = .ok s) :
    s.reg MIPS_R_SP = stackPtr ∧ ∃ memory, flat s.memory = (stackStrings memory).write
      (rangeData stackPtr 72 (wordsByte (stackImage ehdr))) := by
  obtain ⟨ehdr', hehdr', hload⟩ := bind_eq_ok.mp hload
  obtain ⟨phdr, -, hload⟩ := bind_eq_ok.mp hload
  obtain ⟨shdr, -, hload⟩ := bind_eq_ok.mp hload
  obtain ⟨memory, -, hload⟩ := bind_eq_ok.mp hload
  obtain ⟨s₁, -, hload⟩ := bind_eq_ok.mp hload
  cases hehdr.symm.trans hehdr'
  -- Whatever came before, the last function writes the whole stack.
  obtain ⟨s', hsp, hreg, hflat⟩ := loaderLoadSp_eq s₁ ehdr
  cases hload.symm.trans hsp
  exact ⟨hreg, s₁.memory, hflat⟩

/-- No accepted file gets a process image, whatever address its program header table is loaded
at. All but the end of the name is there, with `0x400000 + e_phoff` for that address. -/
theorem initial_stack_no_process_image (elf : List U8) (fresh : Nat → Nat → U8) (s : Machine)
    (ehdr : Elf32Ehdr) (hehdr : loaderLoadEhdr elf = .ok ehdr)
    (hload : loaderElf elf fresh .initial = .ok s) :
    StackLayout s.memory (s.reg MIPS_R_SP) ehdr (0x400000 + ehdr.ePhoff) namePtr (auxPairs ehdr)
      randomPtr ∧
    ∀ phdrAt argv0 aux random,
      ¬ ProcessImage s.memory (s.reg MIPS_R_SP) ehdr phdrAt argv0 aux random := by
  obtain ⟨hsp, memory, hflat⟩ := loaderLoadSp_of_loaderElf hehdr hload
  rw [hsp]
  refine ⟨stackLayout hflat, fun phdrAt argv0 aux random himage => ?_⟩
  -- `argv[0]` is the name, and the byte after it is the first random one.
  have hargv : (.ok argv0 : Except Fault U32) = .ok namePtr :=
    himage.argv.symm.trans (stack_words (j := 1) hflat (by decide))
  have hterminated := himage.terminated
  rw [Except.ok.inj hargv] at hterminated
  have hrandom := stack_strings (i := 8) hflat (by decide)
  exact absurd (Except.ok.inj (hterminated.symm.trans hrandom)) (by decide)

/-- A file with one segment, of the whole file, headers included. -/
def coveringElf : List U8 :=
  let ehdr : List U32 := [0x464c457f, 0x00000101, 0, 0, 0x00080002, 1, 0x4000b8, 52, 84, 0,
    0x00200034, 0x00280001, 2]
  let phdr : List U32 := [PT_LOAD, 0, 0x400000, 0x400000, 192, 192, 5, 4]
  let symtab : List U32 := [0, SHT_SYMTAB, 0, 0, 164, 16, 1, 0, 4, 16]
  let strtab : List U32 := [0, 3, 0, 0, 180, 4, 0, 0, 1, 0]
  let symbol : List U32 := [0, 0x408000, 0, 0]
  let name : List U32 := [0x0070675f]
  let code : List U32 := [0x24020fa1, 0x0000000c]
  (ehdr ++ phdr ++ symtab ++ strtab ++ symbol ++ name ++ code).flatMap wordBytes

abbrev coveringPhdr : Elf32Phdr := ⟨PT_LOAD, 0, 0x400000, 192, 192⟩

theorem loaderElf_coveringElf :
    ∃ ehdr s, loaderLoadEhdr coveringElf = .ok ehdr ∧ ehdr.ePhoff = 52 ∧
      loaderElf coveringElf (fun _ _ => 0) .initial = .ok s := by
  have hcheck : okWith (fun ehdr => ehdr.ePhoff == 52 &&
      okWith (fun _ => true) (loaderElf coveringElf (fun _ _ => 0) .initial))
      (loaderLoadEhdr coveringElf) = true := by decide +kernel
  obtain ⟨ehdr, hehdr, hcheck⟩ := okWith_eq_true.mp hcheck
  obtain ⟨hphoff, hcheck⟩ := Bool.and_eq_true_iff.mp hcheck
  obtain ⟨s, hload, -⟩ := okWith_eq_true.mp hcheck
  exact ⟨ehdr, s, hehdr, eq_of_beq hphoff, hload⟩

theorem initial_stack_no_process_image_coveringElf :
    ∃ ehdr s, loaderElf coveringElf (fun _ _ => 0) .initial = .ok s ∧
      StackLayout s.memory (s.reg MIPS_R_SP) ehdr 0x400034 namePtr (auxPairs ehdr) randomPtr := by
  obtain ⟨ehdr, s, hehdr, hphoff, hload⟩ := loaderElf_coveringElf
  obtain ⟨hlayout, -⟩ :=
    initial_stack_no_process_image coveringElf (fun _ _ => 0) s ehdr hehdr hload
  rw [hphoff] at hlayout
  exact ⟨ehdr, s, hload, hlayout⟩

/-- The segment of that file covers the program header table and ends below the stack, and the
byte after the name is the first random one. -/
theorem argv_unterminated :
    programHeaders coveringElf = .ok [coveringPhdr] ∧ coveringPhdr.top ≤ STACK_BOT.toNat ∧
    ∃ ehdr s, loaderLoadEhdr coveringElf = .ok ehdr ∧
      coveringPhdr.pOffset.toNat ≤ ehdr.ePhoff.toNat ∧
      ehdr.ePhoff.toNat + 32 * ehdr.ePhnum.toNat
        ≤ coveringPhdr.pOffset.toNat + coveringPhdr.pFilesz.toNat ∧
      loaderElf coveringElf (fun _ _ => 0) .initial = .ok s ∧
      memoryReadU32 s.memory (s.reg MIPS_R_SP + 4) = .ok namePtr ∧
      memoryReadU8 s.memory (namePtr + 8) = .ok 0xef ∧
      ∀ argv0 aux random, ¬ ProcessImage s.memory (s.reg MIPS_R_SP) ehdr
        (coveringPhdr.pVaddr + ehdr.ePhoff - coveringPhdr.pOffset) argv0 aux random := by
  have hcheck : okWith (fun ehdr => decide (ehdr.ePhoff.toNat + 32 * ehdr.ePhnum.toNat ≤ 192) &&
      okWith (fun s => okWith (· == namePtr) (memoryReadU32 s.memory (s.reg MIPS_R_SP + 4)) &&
          okWith (· == 0xef) (memoryReadU8 s.memory (namePtr + 8)))
        (loaderElf coveringElf (fun _ _ => 0) .initial))
      (loaderLoadEhdr coveringElf) = true := by decide +kernel
  obtain ⟨ehdr, hehdr, hcheck⟩ := okWith_eq_true.mp hcheck
  obtain ⟨hcovers, hcheck⟩ := Bool.and_eq_true_iff.mp hcheck
  obtain ⟨s, hload, hcheck⟩ := okWith_eq_true.mp hcheck
  obtain ⟨hargv, hbyte⟩ := Bool.and_eq_true_iff.mp hcheck
  obtain ⟨argv, hargv, hptr⟩ := okWith_eq_true.mp hargv
  obtain ⟨byte, hbyte, hrandom⟩ := okWith_eq_true.mp hbyte
  rw [eq_of_beq hptr] at hargv
  rw [eq_of_beq hrandom] at hbyte
  refine ⟨by rfl, by decide, ehdr, s, hehdr, Nat.zero_le _, of_decide_eq_true hcovers, hload, hargv,
    hbyte, fun argv0 aux random himage => ?_⟩
  have hterminated := himage.terminated
  rw [Except.ok.inj (himage.argv.symm.trans hargv), hbyte] at hterminated
  exact absurd (Except.ok.inj hterminated) (by decide)

end MipsEngines
