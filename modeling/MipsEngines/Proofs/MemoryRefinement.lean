import MipsEngines.Proofs.BulkCopies

/-!
# `MipsEngines.Proofs.MemoryRefinement`: the paged memory refines a byte memory

A `MemoryRun` is any sequence of calls that change a memory, from an empty one on, each
within its contract (`MemoryOp.Allowed`). The byte memory it is compared with is the
sequence itself: `MemoryOp.byteAt` is the byte a call writes at an address and `lastByte`
the last one written there. `memory_refines_bytes` says that the pages are those that the
allocations covered, that every read returns last bytes, and that calls within the
contract succeed and change nothing outside their range.
-/

set_option autoImplicit false

namespace MipsEngines

open Lib

/-- A call of a function that changes the memory. -/
inductive MemoryOp
  | allocate (address size : U32)
  | writeU8 (address : U32) (data : U8)
  | writeU16 (address : U32) (data : U16)
  | writeU32 (address : U32) (data : U32)
  | copyWrite (address size : U32) (buffer : Nat → U8)
  | set (address size value : U32)

namespace MemoryOp

def run : MemoryOp → Memory → Except Fault Memory
  | allocate address size, memory => .ok (memoryAllocate memory address size)
  | writeU8 address data, memory => memoryWriteU8 memory address data
  | writeU16 address data, memory => memoryWriteU16 memory address data
  | writeU32 address data, memory => memoryWriteU32 memory address data
  | copyWrite address size buffer, memory => memoryCopyWrite memory address size buffer
  | set address size value, memory => memorySet memory address size value

/-- What callers owe: an allocation is not empty and ends by `2 ^ 32`, words are aligned,
what is written is mapped. -/
def Allowed (memory : Memory) : MemoryOp → Prop
  | allocate address size => 1 ≤ size.toNat ∧ address.toNat + size.toNat ≤ 2 ^ 32
  | writeU8 address _ => Mapped memory address
  | writeU16 address _ => Mapped memory address ∧ address.toNat % 2 = 0
  | writeU32 address _ => Mapped memory address ∧ address.toNat % 4 = 0
  | copyWrite address size _ => MappedRange memory address size.toNat
  | set address size _ => MappedRange memory address size.toNat

/-- The call allocates a range that meets the 4096-byte page of `b`. -/
def CoversPage (b : U32) : MemoryOp → Prop
  | allocate address size => ∃ i < size.toNat, (address.toNat + i) / 4096 = b.toNat / 4096
  | _ => False

/-- The byte the call writes at `b`. The least significant byte of a word has the lowest
address. -/
def byteAt (b : U32) : MemoryOp → Option U8
  | allocate _ _ => none
  | writeU8 address data => rangeData address 1 (byteOf data) b
  | writeU16 address data => rangeData address 2 (byteOf data) b
  | writeU32 address data => rangeData address 4 (byteOf data) b
  | copyWrite address size buffer => rangeData address size.toNat buffer b
  | set address size value => rangeData address size.toNat (fun _ => value.setWidth 8) b

end MemoryOp

/-- The byte last written at `b`, 0 if there is none. -/
def lastByte (ops : List MemoryOp) (b : U32) : U8 :=
  ops.foldl (fun byte op => (op.byteAt b).getD byte) 0

/-- The calls `ops`, each within its contract, took an empty memory to `memory`. -/
inductive MemoryRun : List MemoryOp → Memory → Prop
  | empty {memory : Memory} (h : ∀ t, memory.pageTables t = none) : MemoryRun [] memory
  | call {ops : List MemoryOp} {memory memory' : Memory} (run : MemoryRun ops memory)
      (op : MemoryOp) (allowed : op.Allowed memory) (h : op.run memory = .ok memory') :
      MemoryRun (ops ++ [op]) memory'

/-! ### One call -/

/-- The call on bytes. -/
def MemoryOp.toStoreOp : MemoryOp → StoreOp U32 U8
  | .allocate address size => .allocate (InPages address size)
  | op => .write fun b => op.byteAt b

theorem MemoryOp.written_toStoreOp (op : MemoryOp) (b : U32) :
    op.toStoreOp.written b = op.byteAt b := by
  cases op <;> rfl

/-- The pages `memory_allocate` walks are those that meet its range. -/
theorem MemoryOp.covers_toStoreOp {memory : Memory} {op : MemoryOp} (h : op.Allowed memory)
    (b : U32) : op.toStoreOp.Covers b ↔ op.CoversPage b := by
  cases op with
  | allocate address size => exact inPages_iff h.1 h.2 b
  | _ => rfl

/-- A call within its contract succeeds and does to the bytes what it says. -/
theorem MemoryOp.run_eq {memory : Memory} {op : MemoryOp} (h : op.Allowed memory) :
    ∃ memory', op.run memory = .ok memory' ∧
      flat memory' = op.toStoreOp.apply 0 (flat memory) := by
  cases op with
  | allocate address size => exact ⟨_, rfl, flat_memoryAllocate memory address size⟩
  | writeU8 address data => exact memoryStore_aligned _ h (.inl rfl) (Nat.mod_one _)
  | writeU16 address data => exact memoryStore_aligned _ h.1 (.inr (.inl rfl)) h.2
  | writeU32 address data => exact memoryStore_aligned _ h.1 (.inr (.inr rfl)) h.2
  | copyWrite address size buffer => exact memoryCopyWrite_eq buffer h
  | set address size value => exact memorySet_eq value h

/-- A call within its contract writes mapped bytes only. -/
theorem MemoryOp.mapped_of_byteAt {memory : Memory} {op : MemoryOp} (h : op.Allowed memory)
    {b : U32} {byte : U8} (hb : op.byteAt b = some byte) : Mapped memory b := by
  have hrange : ∀ {address : U32} {n : Nat} {bytes : Nat → U8},
      rangeData address n bytes b = some byte → (b - address).toNat < n := by
    intro address n bytes hdata
    by_contra hout
    rw [rangeData, if_neg hout] at hdata
    cases hdata
  -- The bytes of an aligned word lie in one page.
  have hword : ∀ {address : U32} {n : Nat}, (n = 1 ∨ n = 2 ∨ n = 4) → address.toNat % n = 0 →
      Mapped memory address → (b - address).toNat < n → Mapped memory b := by
    intro address n hn haligned hmapped hlt
    have hfit : address.toNat % 4096 + n ≤ 4096 := by
      rcases hn with rfl | rfl | rfl <;> omega
    exact hmapped.congr ((sub_lt_iff hfit).mp hlt).1.symm
  cases op with
  | allocate address size => cases hb
  | writeU8 address data => exact hword (.inl rfl) (Nat.mod_one _) h (hrange hb)
  | writeU16 address data => exact hword (.inr (.inl rfl)) h.2 h.1 (hrange hb)
  | writeU32 address data => exact hword (.inr (.inr rfl)) h.2 h.1 (hrange hb)
  | copyWrite address size buffer => exact MappedRange.mapped h (hrange hb)
  | set address size value =>
      have hdata : rangeData address size.toNat (fun _ => value.setWidth 8) b = some byte := hb
      exact MappedRange.mapped h (hrange hdata)

/-! ### Runs -/

/-- The bytes of a memory run are those of a run of the store. -/
theorem MemoryRun.storeRun {ops : List MemoryOp} {memory : Memory} (h : MemoryRun ops memory) :
    StoreRun 0 (ops.map MemoryOp.toStoreOp) (flat memory) := by
  induction h with
  | empty hempty =>
      rename_i memory
      have hflat : flat memory = fun _ => none := by
        funext b
        simp [flat, pageAt, hempty]
      rw [hflat]
      exact .nil
  | call run op allowed h ih =>
      obtain ⟨memory', hrun, hflat⟩ := MemoryOp.run_eq allowed
      cases h.symm.trans hrun
      rw [List.map_append, hflat]
      refine ih.snoc op.toStoreOp fun b byte hwritten => ?_
      rw [op.written_toStoreOp] at hwritten
      exact MemoryOp.mapped_of_byteAt allowed hwritten

theorem MemoryRun.covers {ops : List MemoryOp} {memory : Memory} (h : MemoryRun ops memory)
    (b : U32) : (∃ op ∈ ops, op.toStoreOp.Covers b) ↔ ∃ op ∈ ops, op.CoversPage b := by
  induction h with
  | empty => simp
  | call run op allowed h ih =>
      simp only [List.mem_append, List.mem_singleton, or_and_right, exists_or, exists_eq_left]
      rw [ih, MemoryOp.covers_toStoreOp allowed]

theorem lastByte_eq (ops : List MemoryOp) (b : U32) :
    lastWritten 0 (ops.map MemoryOp.toStoreOp) b = lastByte ops b := by
  unfold lastWritten lastByte
  rw [List.foldl_map]
  simp only [MemoryOp.written_toStoreOp]

/-- Mapped addresses hold the byte last written. -/
theorem MemoryRun.flat_eq {ops : List MemoryOp} {memory : Memory} (h : MemoryRun ops memory)
    {b : U32} (hb : Mapped memory b) : flat memory b = some (lastByte ops b) := by
  rw [h.storeRun.eq_lastWritten hb, lastByte_eq]

/-- The bytes of an aligned word are mapped together. -/
theorem Mapped.add {memory : Memory} {address : U32} {n i : Nat} (hn : n = 2 ∨ n = 4)
    (haligned : address.toNat % n = 0) (h : Mapped memory address) (hi : i < n) :
    Mapped memory (address + BitVec.ofNat 32 i) := by
  have hlt := address.isLt
  apply h.congr
  unfold pageNumber
  rw [BitVec.toNat_add, BitVec.toNat_ofNat]
  rcases hn with rfl | rfl <;> omega

/-- The paged memory refines a memory of bytes. -/
theorem memory_refines_bytes {ops : List MemoryOp} {memory : Memory}
    (run : MemoryRun ops memory) :
    (∀ b, Mapped memory b ↔ ∃ op ∈ ops, op.CoversPage b) ∧
    (∀ b, Mapped memory b → memoryReadU8 memory b = .ok (lastByte ops b)) ∧
    (∀ b, Mapped memory b → b.toNat % 2 = 0 →
      memoryReadU16 memory b = .ok (lastByte ops (b + 1) ++ lastByte ops b)) ∧
    (∀ b, Mapped memory b → b.toNat % 4 = 0 →
      memoryReadU32 memory b = .ok (lastByte ops (b + 3) ++ lastByte ops (b + 2) ++
        lastByte ops (b + 1) ++ lastByte ops b)) ∧
    (∀ address size, MappedRange memory address size.toNat →
      memoryCopyRead memory address size = .ok ((List.range size.toNat).map fun i =>
        lastByte ops (address + BitVec.ofNat 32 i))) ∧
    (∀ op : MemoryOp, op.Allowed memory → ∃ memory', op.run memory = .ok memory' ∧
      ∀ b, Mapped memory b → op.byteAt b = none →
        memoryReadU8 memory' b = memoryReadU8 memory b) := by
  refine ⟨?_, ?_, ?_, ?_, ?_, ?_⟩
  · intro b
    rw [← run.covers b]
    refine (run.storeRun.isSome_iff b).trans ?_
    simp
  · intro b hb
    exact memoryReadU8_eq (run.flat_eq hb)
  · intro b hb haligned
    have hb₁ : Mapped memory (b + 1) := hb.add (i := 1) (.inl rfl) haligned (by omega)
    exact memoryReadU16_eq haligned (run.flat_eq hb) (run.flat_eq hb₁)
  · intro b hb haligned
    have hb₁ : Mapped memory (b + 1) := hb.add (i := 1) (.inr rfl) haligned (by omega)
    have hb₂ : Mapped memory (b + 2) := hb.add (i := 2) (.inr rfl) haligned (by omega)
    have hb₃ : Mapped memory (b + 3) := hb.add (i := 3) (.inr rfl) haligned (by omega)
    exact memoryReadU32_eq haligned (run.flat_eq hb) (run.flat_eq hb₁) (run.flat_eq hb₂)
      (run.flat_eq hb₃)
  · intro address size hmapped
    exact memoryCopyRead_eq fun i hi => run.flat_eq (hmapped i hi)
  · intro op hallowed
    obtain ⟨memory', hrun, -⟩ := MemoryOp.run_eq hallowed
    refine ⟨memory', hrun, ?_⟩
    intro b hb hnone
    -- The longer run has the same last byte there.
    have run' := run.call op hallowed hrun
    have hb' : Mapped memory' b := by
      rw [Mapped, run'.storeRun.isSome_iff]
      obtain ⟨op', hmem, hcovers⟩ := (run.storeRun.isSome_iff b).mp hb
      refine ⟨op', ?_, hcovers⟩
      rw [List.map_append]
      exact List.mem_append_left _ hmem
    have hlast : lastByte (ops ++ [op]) b = lastByte ops b := by
      simp [lastByte, List.foldl_append, hnone]
    rw [memoryReadU8_eq (run'.flat_eq hb'), memoryReadU8_eq (run.flat_eq hb), hlast]

/-- Two pages are allocated, a word is written at the end of the first, the first is allocated
again, and six bytes are copied across the boundary. -/
abbrev sampleOps : List MemoryOp :=
  [.allocate 0x3ff000 0x2000, .writeU32 0x3ffffc 0x11223344, .allocate 0x3ff800 0x10,
    .copyWrite 0x3ffffe 6 fun i => BitVec.ofNat 8 (0xa0 + i)]

/-- The word at the end of the first page: half of it is from the copy. The pages are in
different tables. -/
theorem memory_refines_bytes_sample :
    ∃ memory, MemoryRun sampleOps memory ∧ memoryReadU32 memory 0x3ffffc = .ok 0xa1a03344 ∧
      memoryReadU16 memory 0x400000 = .ok 0xa3a2 := by
  have hcall : ∀ {ops : List MemoryOp} {memory : Memory} (run : MemoryRun ops memory)
      (op : MemoryOp), op.Allowed memory →
      ∃ memory', MemoryRun (ops ++ [op]) memory' := by
    intro ops memory run op allowed
    obtain ⟨memory', hrun, -⟩ := (memory_refines_bytes run).2.2.2.2.2 op allowed
    exact ⟨memory', run.call op allowed hrun⟩
  have hmapped : ∀ {ops : List MemoryOp} {memory : Memory} (run : MemoryRun ops memory) (b : U32),
      (∃ op ∈ ops, op.CoversPage b) ↔ Mapped memory b :=
    fun run b => ((memory_refines_bytes run).1 b).symm
  have hcovered : ∀ b : U32, 0x3ff000 ≤ b.toNat → b.toNat < 0x401000 →
      (MemoryOp.allocate 0x3ff000 0x2000).CoversPage b :=
    fun b hle hlt => ⟨b.toNat - 0x3ff000, by show _ < 0x2000; omega,
      by show (0x3ff000 + _) / 4096 = _; omega⟩
  obtain ⟨memory₁, run₁⟩ := hcall (.empty fun _ => rfl : MemoryRun [] Memory.empty)
    (.allocate 0x3ff000 0x2000) ⟨by decide, by decide⟩
  obtain ⟨memory₂, run₂⟩ := hcall run₁ (.writeU32 0x3ffffc 0x11223344)
    ⟨(hmapped run₁ _).mp ⟨_, by simp, hcovered _ (by decide) (by decide)⟩, rfl⟩
  obtain ⟨memory₃, run₃⟩ := hcall run₂ (.allocate 0x3ff800 0x10) ⟨by decide, by decide⟩
  obtain ⟨memory₄, run₄⟩ := hcall run₃ (.copyWrite 0x3ffffe 6 fun i => BitVec.ofNat 8 (0xa0 + i))
    (by
      intro i hi
      have hi' : i < 6 := hi
      refine (hmapped run₃ _).mp ⟨_, by simp, hcovered _ ?_ ?_⟩ <;>
        · rw [BitVec.toNat_add, BitVec.toNat_ofNat]
          simp
          omega)
  obtain ⟨hpages, -, hread16, hread32, -⟩ := memory_refines_bytes run₄
  have hin : ∀ b : U32, 0x3ff000 ≤ b.toNat → b.toNat < 0x401000 → Mapped memory₄ b :=
    fun b hle hlt => (hpages b).mpr ⟨_, by simp, hcovered b hle hlt⟩
  refine ⟨memory₄, run₄, ?_, ?_⟩
  · rw [hread32 0x3ffffc (hin _ (by decide) (by decide)) rfl]
    rfl
  · rw [hread16 0x400000 (hin _ (by decide) (by decide)) rfl]
    rfl

end MipsEngines
