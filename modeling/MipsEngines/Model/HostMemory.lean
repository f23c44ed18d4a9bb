import MipsEngines.Lib.BlockHeap
import MipsEngines.Lib.Except
import MipsEngines.Model.Memory

/-!
# `MipsEngines.Model.HostMemory`: the guest memory with its pointers

`memory.h` and `memory.c` once more, one level below `Model.Memory`: a `struct memory` holds
pointers to page tables, these hold pointers to pages, and both are blocks that
`memory_allocate` takes from `calloc` and `memory_delete` gives to `free`. A pointer is the
number of a block on the heap of the host.

What C leaves undefined here, and what `Model.Memory` cannot express, is an access through a
pointer to a block that was freed, or is of the other kind, and a second `free`. All of these
are `Fault.overrun`. The heap has other blocks as well, those of the rest of the emulator.
-/

set_option autoImplicit false

namespace MipsEngines

open Lib

/-- What is behind a pointer: a `page_table_t`, or the bytes of a page. -/
inductive HostBlock
  | table (pageEntries : Fin PE_COUNT → Option Nat)
  | page (bytes : Page)

/-- `struct memory`, and the heap its pointers go to. -/
structure HostMemory where
  pageTables : Fin PT_COUNT → Option Nat
  brkHeapStart : U32
  brkHeapEnd : U32
  mmapHeapStart : U32
  mmapHeapEnd : U32
  heap : BlockHeap HostBlock

namespace HostMemory

/-- A zero-initialised `struct memory`. -/
def empty (heap : BlockHeap HostBlock) : HostMemory := ⟨fun _ => none, 0, 0, 0, 0, heap⟩

/-- `memory_create`. -/
def create (m : HostMemory) : HostMemory :=
  { m with mmapHeapStart := 0x40000000, mmapHeapEnd := 0x40000000 }

/-- A page table is read through a pointer. -/
def tableAt (m : HostMemory) (p : Nat) : Except Fault (Fin PE_COUNT → Option Nat) :=
  match m.heap.block p with
  | some (.table entries) => .ok entries
  | _ => .error .overrun

/-- The page behind a pointer. -/
def pageAt (m : HostMemory) (p : Nat) : Except Fault Page :=
  match m.heap.block p with
  | some (.page bytes) => .ok bytes
  | _ => .error .overrun

def storeBlock (m : HostMemory) (p : Nat) (b : HostBlock) : HostMemory :=
  { m with heap := m.heap.store p b }

/-- `calloc`: the pointer, and the memory with the new block. -/
def calloc (m : HostMemory) (b : HostBlock) : Nat × HostMemory :=
  (m.heap.next, { m with heap := m.heap.alloc b })

def free (m : HostMemory) (p : Nat) : Except Fault HostMemory :=
  match m.heap.free p with
  | none => .error .overrun
  | some heap => .ok { m with heap := heap }

/-! ### Address translation -/

/-- `memory_find_page`: the page and the offset of the pointer it returns. The pointer is
dereferenced by every caller, so a page that is not there is a fault already here. -/
def findPage (m : HostMemory) (address : U32) : Except Fault (Nat × Fin PAGE_SIZE) :=
  match m.pageTables (ptIdx address) with
  | none => .error .unmapped
  | some p => do
      let entries ← m.tableAt p
      match entries (peIdx address) with
      | none => .error .unmapped
      | some q => .ok (q, pageOffset address)

/-! ### Reads and writes of one word -/

def readU8 (m : HostMemory) (address : U32) : Except Fault U8 := do
  let (q, o) ← m.findPage address
  let page ← m.pageAt q
  return page o

def readU16 (m : HostMemory) (address : U32) : Except Fault U16 := do
  let (q, o) ← m.findPage address
  let page ← m.pageAt q
  if h : o.val + 2 ≤ PAGE_SIZE then
    return page ⟨o.val + 1, by omega⟩ ++ page o
  else .error .overrun

def readU32 (m : HostMemory) (address : U32) : Except Fault U32 := do
  let (q, o) ← m.findPage address
  let page ← m.pageAt q
  if h : o.val + 4 ≤ PAGE_SIZE then
    return page ⟨o.val + 3, by omega⟩ ++ page ⟨o.val + 2, by omega⟩
      ++ page ⟨o.val + 1, by omega⟩ ++ page o
  else .error .overrun

/-- `amount` bytes are stored through the pointer that `memory_find_page` returns. -/
def store (m : HostMemory) (address : U32) (amount : Nat) (bytes : Nat → U8) :
    Except Fault HostMemory := do
  let (q, o) ← m.findPage address
  let page ← m.pageAt q
  if o.val + amount ≤ PAGE_SIZE then
    return m.storeBlock q (.page fun i =>
      if o.val ≤ i.val ∧ i.val < o.val + amount then bytes (i.val - o.val) else page i)
  else .error .overrun

def writeU8 (m : HostMemory) (address : U32) (data : U8) : Except Fault HostMemory :=
  m.store address 1 (byteOf data)

def writeU16 (m : HostMemory) (address : U32) (data : U16) : Except Fault HostMemory :=
  m.store address 2 (byteOf data)

def writeU32 (m : HostMemory) (address : U32) (data : U32) : Except Fault HostMemory :=
  m.store address 4 (byteOf data)

/-! ### Allocation -/

/-- The place of a loop variable in a table: `t & PT_MASK`, `e & PE_MASK`. -/
def place (i : Nat) : Fin 1024 := ⟨i % 1024, Nat.mod_lt _ (by decide)⟩

/-- The inner loop's body in `memory_allocate`, for the table behind `p`. -/
def allocateEntry (p : Nat) (m : HostMemory) (e : Nat) : Except Fault HostMemory := do
  let entries ← m.tableAt p
  match entries (place e) with
  | some _ => return m
  | none => do
      let (q, m) := m.calloc (.page fun _ => 0)
      let entries ← m.tableAt p
      return m.storeBlock p (.table fun i => if i = place e then some q else entries i)

/-- The table for `t`: a new one where there is none. -/
def findTable (m : HostMemory) (t : Nat) : Nat × HostMemory :=
  match m.pageTables (place t) with
  | some p => (p, m)
  | none =>
      let (p, m) := m.calloc (.table fun _ => none)
      (p, { m with pageTables := fun i => if i = place t then some p else m.pageTables i })

/-- The outer loop's body in `memory_allocate`. -/
def allocateTable (address last : U32) (head tail : Nat) (m : HostMemory) (t : Nat) :
    Except Fault HostMemory :=
  let (p, m) := m.findTable t
  let entryStart := if t = head then (peIdx address).val else 0
  let entryEnd := if t = tail then (peIdx last).val else PE_MASK.toNat
  (List.range' entryStart (entryEnd + 1 - entryStart)).foldlM (allocateEntry p) m

/-- `memory_allocate`. -/
def allocate (m : HostMemory) (address size : U32) : Except Fault HostMemory :=
  let last := address + size - 1
  let head := (ptIdx address).val
  let tail := (ptIdx last).val
  (List.range' head (tail + 1 - head)).foldlM (allocateTable address last head tail) m

/-! ### Bulk copies -/

theorem offset_lt (o i : Nat) : (o + i) % PAGE_SIZE < PAGE_SIZE := Nat.mod_lt _ (by decide)

/-- The byte `i` behind the one at `o`. -/
def pageByte (page : Page) (o : Fin PAGE_SIZE) (i : Nat) : U8 :=
  page ⟨(o.val + i) % PAGE_SIZE, offset_lt o.val i⟩

def copyReadLoop : Nat → HostMemory → U32 → U32 → Except Fault (List U8)
  | 0, _, _, _ => .ok []
  | fuel + 1, m, address, size =>
      if size = 0 then .ok []
      else do
        let (q, o) ← m.findPage address
        let amount := chunk address size
        let page ← m.pageAt q
        let here := (List.range amount.toNat).map (pageByte page o)
        let rest ← copyReadLoop fuel m (address + amount) (size - amount)
        return here ++ rest

/-- `memory_copy_read`. -/
def copyRead (m : HostMemory) (address size : U32) : Except Fault (List U8) :=
  copyReadLoop size.toNat m address size

/-- The loop of `memory_copy_write` and `memory_set`. -/
def copyWriteLoop : Nat → HostMemory → U32 → U32 → (Nat → U8) → Except Fault HostMemory
  | 0, m, _, _, _ => .ok m
  | fuel + 1, m, address, size, buffer =>
      if size = 0 then .ok m
      else do
        let amount := chunk address size
        let m ← m.store address amount.toNat buffer
        copyWriteLoop fuel m (address + amount) (size - amount)
          fun i => buffer (amount.toNat + i)

/-- `memory_copy_write`. -/
def copyWrite (m : HostMemory) (address size : U32) (buffer : Nat → U8) :
    Except Fault HostMemory :=
  copyWriteLoop size.toNat m address size buffer

/-- `memory_set`. -/
def set (m : HostMemory) (address size value : U32) : Except Fault HostMemory :=
  copyWriteLoop size.toNat m address size fun _ => value.setWidth 8

/-! ### `memory_delete` -/

/-- The inner loop's body in `memory_delete`, for the table behind `p`. -/
def deleteEntry (p : Nat) (m : HostMemory) (e : Fin PE_COUNT) : Except Fault HostMemory := do
  let entries ← m.tableAt p
  match entries e with
  | none => return m
  | some q => m.free q

/-- The outer loop's body. -/
def deleteTable (m : HostMemory) (t : Fin PT_COUNT) : Except Fault HostMemory :=
  match m.pageTables t with
  | none => .ok m
  | some p => do
      let m ← (List.finRange PE_COUNT).foldlM (deleteEntry p) m
      m.free p

/-- `memory_delete`. The pointers to what was freed are left behind. -/
def delete (m : HostMemory) : Except Fault HostMemory :=
  (List.finRange PT_COUNT).foldlM deleteTable m

end HostMemory

end MipsEngines
