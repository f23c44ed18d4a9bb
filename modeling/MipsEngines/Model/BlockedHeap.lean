import MipsEngines.Lib.BlockHeap
import MipsEngines.Model.UtHash

/-!
# `MipsEngines.Model.BlockedHeap`: the block engine with its allocations

`blocked.c` once more, with what `Model.Blocked` leaves out: `decode_block` keeps its ops in an
array that `DARRAY_PUSH` enlarges with `realloc`, a `struct block` comes from `malloc` and has a
pointer to that array, and the loop at the end of `interpreter_blocked` frees both.

An access to memory that is not there, or was freed, or was never stored to is
`Fault.overrun`, and so is a second `free`. `realloc` is a new block, a copy and a `free`. Memory
is taken to be there, for as many ops as `capacity` says: after `2 ^ 31` of them doubling it makes
0, and `realloc` leaves no room for the next one. The memory of the hash table is that of `UtHash`.
-/

set_option autoImplicit false

namespace MipsEngines

open Lib

/-- What the engine allocates: an array of ops, of which the last ones may not be stored yet, or
a `struct block`, whose fields are in `HostedBlock`. -/
inductive EngineBlock
  | ops (entries : List (Option Op))
  | block

abbrev EngineHeap := BlockHeap EngineBlock

/-- The array behind a pointer. -/
def opsAt (heap : EngineHeap) (p : Nat) : Except Fault (List (Option Op)) :=
  match heap.block p with
  | some (.ops entries) => .ok entries
  | _ => .error .overrun

/-- `free`. -/
def freeBlock (heap : EngineHeap) (p : Nat) : Except Fault EngineHeap :=
  match heap.free p with
  | none => .error .overrun
  | some heap => .ok heap

/-! ### `DARRAY_PUSH` -/

/-- The local variables `ops`, `size` and `capacity` of `decode_block`. -/
structure DArray where
  ops : Nat
  size : U32
  capacity : U32
  deriving DecidableEq, Repr

/-- `realloc(ops, sizeof(*ops) * capacity)`. -/
def reallocOps (heap : EngineHeap) (ops : Nat) (capacity : U32) :
    Except Fault (EngineHeap × Nat) := do
  let entries ← opsAt heap ops
  let moved := entries.take capacity.toNat
    ++ List.replicate (capacity.toNat - entries.length) none
  let heap' ← freeBlock (heap.alloc (.ops moved)) ops
  return (heap', heap.next)

/-- The `if` of `DARRAY_PUSH`: a full array gets twice the room. -/
def darrayGrow (heap : EngineHeap) (a : DArray) : Except Fault (EngineHeap × DArray) :=
  if a.size = a.capacity then do
    let capacity := a.capacity * 2
    let (heap, ops) ← reallocOps heap a.ops capacity
    return (heap, { a with ops := ops, capacity := capacity })
  else return (heap, a)

/-- `DARRAY_PUSH`. -/
def darrayPush (heap : EngineHeap) (a : DArray) (op : Op) : Except Fault (EngineHeap × DArray) := do
  let (heap, a) ← darrayGrow heap a
  let entries ← opsAt heap a.ops
  if a.size.toNat < entries.length then
    return (heap.store a.ops (.ops (entries.set a.size.toNat (some op))),
      { a with size := a.size + 1 })
  else .error .overrun

/-! ### `decode_block` -/

/-- `struct block`. `self` is the pointer to it, and `ops` that to its array. -/
structure HostedBlock where
  self : Nat
  address : U32
  size : U32
  ops : Nat
  indirect : Bool
  next : Bool → Option Nat

/-- The chain of labels in `decode_block`, as in `decodeLoop`. -/
def decodeLoopInto (memory : Memory) (halted : Bool) :
    Nat → (pc : U32) → (branched indirect : Bool) → EngineHeap → DArray →
      Except Fault (EngineHeap × DArray × Bool × U32)
  | 0, _, _, _, _, _ => .error .diverge
  | fuel + 1, pc, branched, indirect, heap, a => do
      let cir ← memoryReadU32 memory pc
      let i ← tableDispatch cir
      let (heap, a) ← darrayPush heap a ⟨cir, some i⟩
      if i.isIndirect then decodeLoopInto memory halted fuel (pc + 4) true true heap a
      else if i.isControl then decodeLoopInto memory halted fuel (pc + 4) true indirect heap a
      else if !branched && !halted then
        decodeLoopInto memory halted fuel (pc + 4) branched indirect heap a
      else return (heap, a, indirect, cir)

/-- The array starts with room for this many ops. -/
abbrev INITIAL_CAPACITY : U32 := 32

/-- A chain that goes on for ever ends with the push behind op `2 ^ 31`, which has no room. -/
abbrev pushFuel : Nat := 2 ^ 31 + 1

def decodeBlockInto (mips : Mips) (memory : Memory) (heap : EngineHeap) :
    Except Fault (EngineHeap × HostedBlock) := do
  let a : DArray := ⟨heap.next, 0, INITIAL_CAPACITY⟩
  let heap := heap.alloc (.ops (List.replicate INITIAL_CAPACITY.toNat none))
  let (heap, a, indirect, cir) ←
    decodeLoopInto memory mips.halted pushFuel (mips.r MIPS_R_PC) false false heap a
  let (heap, a) ← darrayPush heap a ⟨cir, none⟩
  return (heap.alloc .block, {
    self := heap.next
    address := mips.r MIPS_R_PC
    size := a.size
    ops := a.ops
    indirect := indirect
    next := fun _ => none })

/-! ### `interpreter_blocked` -/

structure HostedState where
  control : BlockedControl
  blocks : List HostedBlock
  previous : Option Nat
  machine : Machine
  hash : UtHash
  heap : EngineHeap

/-- The block as `Model.Blocked` has it: with the ops that are stored in its array. -/
def HostedBlock.view (heap : EngineHeap) (b : HostedBlock) : Block where
  address := b.address
  size := b.size
  ops :=
    match opsAt heap b.ops with
    | .ok entries => entries.filterMap id
    | .error _ => []
  indirect := b.indirect
  next := b.next

/-- A pointer to a block is followed. -/
def derefHosted (heap : EngineHeap) (blocks : List HostedBlock) (p : Nat) :
    Except Fault HostedBlock :=
  match blocks[p]? with
  | none => .error .overrun
  | some b =>
      match heap.block b.self with
      | some .block => .ok b
      | _ => .error .overrun

/-- An op is read through the pointer `ops`. -/
def opHosted (heap : EngineHeap) (b : HostedBlock) (k : Nat) : Except Fault Op := do
  let entries ← opsAt heap b.ops
  match entries[k]? with
  | some (some op) => return op
  | _ => .error .overrun

/-- `previous->next[mips->branched] = current`. -/
def linkHosted (heap : EngineHeap) (blocks : List HostedBlock) (previous : Option Nat)
    (branched : Bool) (current : Nat) : Except Fault (List HostedBlock) :=
  match previous with
  | none => .ok blocks
  | some p => do
      let b ← derefHosted heap blocks p
      let next := fun i => if i = branched then some current else b.next i
      return if b.indirect then blocks else blocks.set p { b with next := next }

/-- The steps of `blockedStep`, where they use the hash table or the heap. -/
def hostedStep (host : Host) (e : HostedState) : Except Fault HostedState :=
  let s := e.machine
  match e.control with
  | .outer =>
      if s.mips.halted then .ok { e with control := .returned }
      else do
        let (blocks, hash, heap, current) ←
          match ← e.hash.hashFind (s.reg MIPS_R_PC) with
          | some current => pure (e.blocks, e.hash, e.heap, current)
          | none => do
              let (heap, b) ← decodeBlockInto s.mips s.memory e.heap
              let hash ← e.hash.hashAdd e.blocks.length b.address
              pure (e.blocks ++ [b], hash, heap, e.blocks.length)
        let blocks ← linkHosted heap blocks e.previous s.mips.branched current
        return { e with control := .inner current, blocks, hash, heap }
  | .inner current => do
      let b ← derefHosted e.heap e.blocks current
      return { e with
        control := .unrolled current 0 (firstCase (b.view e.heap))
        machine := preIncrement (b.view e.heap) s }
  | .unrolled current ops case => do
      let b ← derefHosted e.heap e.blocks current
      let op ← opHosted e.heap b ops
      match op.op with
      | none => .error .emptyEntry
      | some i => do
          let s ← execute host i op.cir s
          return { e with
            control := if case = 1 then .test current (ops + 1)
              else .unrolled current (ops + 1) (case - 1)
            machine := s }
  | .test current ops => do
      let b ← derefHosted e.heap e.blocks current
      let op ← opHosted e.heap b ops
      return { e with
        control := if op.op.isSome then .unrolled current ops 8 else .leave current }
  | .leave current => do
      let b ← derefHosted e.heap e.blocks current
      let s := s.setReg MIPS_R_PC (s.reg MIPS_R_NNPC)
      return { e with
        control := afterBlock (b.view e.heap) s.mips
        previous := some current
        machine := s }
  | .returned => .ok e

/-- `interpreter_blocked` up to its last loop, started at `HostedState.start`. -/
def interpreterHosted (host : Host) : StepMachine Fault HostedState where
  done e := match e.control with | .returned => true | _ => false
  step := hostedStep host

/-- The start, on a heap that has the blocks of the rest of the emulator. -/
def HostedState.start (s : Machine) (heap : EngineHeap) : HostedState :=
  ⟨.outer, [], none, s, .empty, heap⟩

/-- The loop at the end of `interpreter_blocked`, from the element `b` on, with `t` behind it. -/
def freeLoopHosted (blocks : List HostedBlock) :
    Nat → (b t : Option Nat) → UtHash → EngineHeap → Except Fault EngineHeap
  | _, none, _, _, heap => .ok heap
  | 0, some _, _, _, _ => .error .diverge
  | fuel + 1, some p, t, h, heap => do
      let h ← h.hashDelete p
      let b ← derefHosted heap blocks p
      let heap ← freeBlock heap b.ops
      let heap ← freeBlock heap b.self
      let h := h.free p
      let t' ← h.nextOf t
      freeLoopHosted blocks fuel t t' h heap

def HostedState.cleanup (e : HostedState) : Except Fault EngineHeap := do
  let t ← e.hash.nextOf e.hash.head
  freeLoopHosted e.blocks UtHash.handleFuel e.hash.head t e.hash e.heap

end MipsEngines
