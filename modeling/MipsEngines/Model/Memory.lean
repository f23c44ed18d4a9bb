import MipsEngines.Model.Word

/-!
# `MipsEngines.Model.Memory`: the paged guest memory

`memory.h` and `memory.c`. A memory is a table of page tables, each a table of
pages of 4096 bytes. A `NULL` pointer at either level is `none`.

An access that C leaves undefined ends in a `Fault` here. `unmapped` is the
dereference of a `NULL` table or page. `overrun` is an access past the end of a
heap buffer: the word accessors translate their address once and then run past
the page when it ends inside the access. Allocations from the host heap are taken
to succeed, so the `abort` arms for a failed `calloc` are not modelled.
-/

set_option autoImplicit false

namespace MipsEngines

/-- The ways the emulator dies without returning. -/
inductive Fault
  /-- `abort()`, or a failed `assert`. -/
  | abort
  /-- A `NULL` page table or page was dereferenced. -/
  | unmapped
  /-- An access past the end of a heap buffer. -/
  | overrun
  /-- Control went through a `NULL` entry of a dispatch table, or a `NULL`
  handler. -/
  | emptyEntry
  /-- A dispatch table was indexed past its end. -/
  | outOfRange
  /-- A loop of the emulator that never ends. -/
  | diverge
  deriving DecidableEq, Repr

abbrev USER_TOP : U32 := 0x80000000
abbrev STACK_SIZE : U32 := 0x10000
abbrev STACK_TOP : U32 := USER_TOP
abbrev STACK_BOT : U32 := STACK_TOP - STACK_SIZE

abbrev PT_SHIFT : Nat := 22
abbrev PE_SHIFT : Nat := 12
abbrev PT_MASK : U32 := 0b1111111111
abbrev PE_MASK : U32 := 0b1111111111
abbrev PT_COUNT : Nat := 1024
abbrev PE_COUNT : Nat := 1024
abbrev OFFSET_MASK : U32 := 0b111111111111

/-- The bytes of a page. -/
abbrev PAGE_SIZE : Nat := 4096

abbrev Page := Fin PAGE_SIZE → U8

abbrev PageTable := Fin PE_COUNT → Option Page

/-- `struct memory`. -/
structure Memory where
  pageTables : Fin PT_COUNT → Option PageTable
  brkHeapStart : U32
  brkHeapEnd : U32
  mmapHeapStart : U32
  mmapHeapEnd : U32

/-- The zero-initialised `struct memory` of each `main`, before `memory_create`. -/
def Memory.empty : Memory := ⟨fun _ => none, 0, 0, 0, 0⟩

/-- `memory_create`. -/
def memoryCreate (memory : Memory) : Memory :=
  { memory with mmapHeapStart := 0x40000000, mmapHeapEnd := 0x40000000 }

/-! ### Address translation -/

def ptIdx (address : U32) : Fin PT_COUNT :=
  ⟨((address >>> PT_SHIFT) &&& PT_MASK).toNat, toNat_and_mask_lt _ _ 10 rfl⟩

def peIdx (address : U32) : Fin PE_COUNT :=
  ⟨((address >>> PE_SHIFT) &&& PE_MASK).toNat, toNat_and_mask_lt _ _ 10 rfl⟩

def pageOffset (address : U32) : Fin PAGE_SIZE :=
  ⟨(address &&& OFFSET_MASK).toNat, toNat_and_mask_lt _ _ 12 rfl⟩

/-- `memory_find_page`, up to the offset: the page the address lies in. -/
def memoryFindPage (memory : Memory) (address : U32) : Except Fault Page :=
  match memory.pageTables (ptIdx address) with
  | none => .error .unmapped
  | some table =>
      match table (peIdx address) with
      | none => .error .unmapped
      | some page => .ok page

/-- The page `address` lies in replaced by `page`. The pointer returned by
`memory_find_page` is written through, so the table keeps its other entries. -/
def Memory.setPage (memory : Memory) (address : U32) (page : Page) : Memory :=
  { memory with
    pageTables := fun t =>
      if t = ptIdx address then
        (memory.pageTables t).map fun table e => if e = peIdx address then some page else table e
      else memory.pageTables t }

/-! ### Reads and writes of one word -/

def memoryReadU8 (memory : Memory) (address : U32) : Except Fault U8 := do
  let page ← memoryFindPage memory address
  return page (pageOffset address)

def memoryReadU16 (memory : Memory) (address : U32) : Except Fault U16 := do
  let page ← memoryFindPage memory address
  let o := pageOffset address
  if h : o.val + 2 ≤ PAGE_SIZE then
    -- Both bytes are read through the pointer to the first one.
    return page ⟨o.val + 1, by omega⟩ ++ page o
  else .error .overrun

def memoryReadU32 (memory : Memory) (address : U32) : Except Fault U32 := do
  let page ← memoryFindPage memory address
  let o := pageOffset address
  if h : o.val + 4 ≤ PAGE_SIZE then
    return page ⟨o.val + 3, by omega⟩ ++ page ⟨o.val + 2, by omega⟩
      ++ page ⟨o.val + 1, by omega⟩ ++ page o
  else .error .overrun

/-- `amount` bytes stored through the pointer `memory_find_page` returns, byte
`i` being `bytes i`. -/
def memoryStore (memory : Memory) (address : U32) (amount : Nat) (bytes : Nat → U8) :
    Except Fault Memory := do
  let page ← memoryFindPage memory address
  let o := pageOffset address
  if o.val + amount ≤ PAGE_SIZE then
    return memory.setPage address fun i =>
      if o.val ≤ i.val ∧ i.val < o.val + amount then bytes (i.val - o.val) else page i
  else .error .overrun

/-- Byte `i` of a word, counted from the least significant one: the host is
little-endian. -/
def byteOf {w : Nat} (data : BitVec w) (i : Nat) : U8 := data.extractLsb' (8 * i) 8

def memoryWriteU8 (memory : Memory) (address : U32) (data : U8) : Except Fault Memory :=
  memoryStore memory address 1 (byteOf data)

def memoryWriteU16 (memory : Memory) (address : U32) (data : U16) : Except Fault Memory :=
  memoryStore memory address 2 (byteOf data)

def memoryWriteU32 (memory : Memory) (address : U32) (data : U32) : Except Fault Memory :=
  memoryStore memory address 4 (byteOf data)

/-! ### Allocation -/

/-- The inner loop's body in `memory_allocate`: a page is allocated, zeroed,
where there is none. -/
def allocateEntry (table : PageTable) (e : Nat) : PageTable :=
  fun i => if i.val = e % PE_COUNT then some ((table i).getD fun _ => 0) else table i

/-- The outer loop's body in `memory_allocate`, for table `t` of the range from
`head` to `tail`: a table is allocated, empty, where there is none, and then its
entries in the range. -/
def allocateTable (address last : U32) (head tail : Nat) (memory : Memory) (t : Nat) :
    Memory :=
  -- Only the first and the last table of the range are entered in part.
  let entryStart := if t = head then (peIdx address).val else 0
  let entryEnd := if t = tail then (peIdx last).val else PE_MASK.toNat
  let entries := List.range' entryStart (entryEnd + 1 - entryStart)
  { memory with
    pageTables := fun i =>
      if i.val = t % PT_COUNT then
        some (entries.foldl allocateEntry ((memory.pageTables i).getD fun _ => none))
      else memory.pageTables i }

/-- `memory_allocate`. The loop variables stay below 1024, so the `u32` counters
do not wrap and each loop is a fold over its range. -/
def memoryAllocate (memory : Memory) (address size : U32) : Memory :=
  -- For a size of 0 this is the address before, and the range may be empty.
  let last := address + size - 1
  let head := (ptIdx address).val
  let tail := (ptIdx last).val
  (List.range' head (tail + 1 - head)).foldl (allocateTable address last head tail) memory

/-! ### Bulk copies

Each loop moves what is left of the current page and goes on with the next one.
A round with `size ≠ 0` moves at least one byte, so `size` rounds are enough:
that is the fuel each loop is given. -/

/-- The bytes the loops move in one round, `min size (4096 - offset)`. -/
def chunk (address size : U32) : U32 :=
  let offset := address &&& OFFSET_MASK
  if size < OFFSET_MASK + 1 - offset then size else OFFSET_MASK + 1 - offset

def copyReadLoop : Nat → Memory → U32 → U32 → Except Fault (List U8)
  | 0, _, _, _ => .ok []
  | fuel + 1, memory, address, size =>
      if size = 0 then .ok []
      else do
        let page ← memoryFindPage memory address
        let amount := chunk address size
        -- `memcpy` from the page: the amount never reaches past its end.
        let here := (List.range amount.toNat).map fun i =>
          page (Fin.ofNat PAGE_SIZE ((pageOffset address).val + i))
        let rest ← copyReadLoop fuel memory (address + amount) (size - amount)
        return here ++ rest

/-- `memory_copy_read`: the bytes it puts in the buffer. -/
def memoryCopyRead (memory : Memory) (address size : U32) : Except Fault (List U8) :=
  copyReadLoop size.toNat memory address size

/-- The loop of `memory_copy_write` and `memory_set`. They differ in the byte
they store: `buffer i` for byte `i` of the range. -/
def copyWriteLoop : Nat → Memory → U32 → U32 → (Nat → U8) → Except Fault Memory
  | 0, memory, _, _, _ => .ok memory
  | fuel + 1, memory, address, size, buffer =>
      if size = 0 then .ok memory
      else do
        let amount := chunk address size
        let memory ← memoryStore memory address amount.toNat buffer
        copyWriteLoop fuel memory (address + amount) (size - amount)
          fun i => buffer (amount.toNat + i)

/-- `memory_copy_write`. -/
def memoryCopyWrite (memory : Memory) (address size : U32) (buffer : Nat → U8) :
    Except Fault Memory :=
  copyWriteLoop size.toNat memory address size buffer

/-- `memory_set`: `memset` stores the low byte of `value`. -/
def memorySet (memory : Memory) (address size value : U32) : Except Fault Memory :=
  copyWriteLoop size.toNat memory address size fun _ => value.setWidth 8

end MipsEngines
