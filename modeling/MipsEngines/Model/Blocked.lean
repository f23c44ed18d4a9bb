import MipsEngines.Model.Engines

/-!
# `MipsEngines.Model.Blocked`: the block engine

`blocked.c`. A block is decoded once, kept in a hash table, and linked to its
successors. Blocks live in a list that only grows; a pointer to a block is its
place in it. The list is the hash table as well: `HASH_FIND` is the first block
with the key and `HASH_ADD` appends, which is what a correct map does.

The states of `interpreterBlocked` follow the loops of `interpreter_blocked`: the
head of the outer loop, the head of the inner one, the case labels of the
unrolled loop, its test, and what comes after it.
-/

set_option autoImplicit false

namespace MipsEngines

open Lib

abbrev UNROLL_SIZE : U32 := 8

/-- `struct op`: an instruction word and its handler. A `NULL` handler ends the
block. -/
structure Op where
  cir : U32
  op : Option Instr
  deriving DecidableEq, Repr

/-- `struct block`. `next false` is where execution continues, `next true` is
where the branch goes. -/
structure Block where
  address : U32
  size : U32
  ops : List Op
  indirect : Bool
  next : Bool → Option Nat

/-! ### `decode_block` -/

/-- The chain of labels in `decode_block`, from the `DISPATCH` at `pc` on: the ops
pushed, the `indirect` flag, and the last word. `LABEL`, `LABEL_BRANCH` and
`LABEL_BRANCH_INDIRECT` differ in the flags they set and in whether they go on. -/
def decodeLoop (memory : Memory) (halted : Bool) :
    Nat → (pc : U32) → (branched indirect : Bool) → List Op →
      Except Fault (List Op × Bool × U32)
  | 0, _, _, _, _ => .error .diverge
  | fuel + 1, pc, branched, indirect, ops => do
      let cir ← memoryReadU32 memory pc
      let i ← tableDispatch cir
      let ops := ops ++ [⟨cir, some i⟩]
      -- A transfer always goes on, so its delay slot is in the block.
      if i.isIndirect then decodeLoop memory halted fuel (pc + 4) true true ops
      else if i.isControl then decodeLoop memory halted fuel (pc + 4) true indirect ops
      -- Any other instruction goes on unless it is a delay slot.
      else if !branched && !halted then
        decodeLoop memory halted fuel (pc + 4) branched indirect ops
      else return (ops, indirect, cir)

/-- The memory does not change while a block is decoded and `pc` wraps, so a
chain longer than this repeats itself for ever. -/
abbrev decodeFuel : Nat := 2 ^ 30 + 2

def decodeBlock (mips : Mips) (memory : Memory) : Except Fault Block := do
  let (ops, indirect, cir) ←
    decodeLoop memory mips.halted decodeFuel (mips.r MIPS_R_PC) false false []
  -- The terminator is pushed with the last word still in `cir`.
  let ops := ops ++ [⟨cir, none⟩]
  return {
    address := mips.r MIPS_R_PC
    size := BitVec.ofNat 32 ops.length
    ops := ops
    indirect := indirect
    next := fun _ => none }

/-! ### `interpreter_blocked` -/

/-- Where control is. `unrolled current ops case` is at a case label of the unrolled
loop, with `ops` the place of the next op. -/
inductive BlockedControl
  | outer
  | inner (current : Nat)
  | unrolled (current ops case : Nat)
  | test (current ops : Nat)
  | leave (current : Nat)
  | returned
  deriving DecidableEq, Repr

structure BlockedState where
  control : BlockedControl
  blocks : List Block
  previous : Option Nat
  machine : Machine

/-- `HASH_FIND`. -/
def hashFind (blocks : List Block) (address : U32) : Option Nat :=
  blocks.findIdx? fun b => b.address = address

/-- `previous->next[mips->branched] = current`, unless there is no previous block
or it is indirect. -/
def linkPrevious (blocks : List Block) (previous : Option Nat) (branched : Bool)
    (current : Nat) : List Block :=
  match previous with
  | none => blocks
  | some p => blocks.modify p fun b =>
      if b.indirect then b
      else { b with next := fun i => if i = branched then some current else b.next i }

/-- `mips->r[MIPS_R_PC] += 4*(current->size - 3)`. -/
def preIncrement (b : Block) (s : Machine) : Machine :=
  s.setReg MIPS_R_PC (s.reg MIPS_R_PC + 4 * (b.size - 3))

/-- The case label the `switch` in front of the unrolled loop jumps to. -/
def firstCase (b : Block) : Nat :=
  let c := ((b.size - 1) % UNROLL_SIZE).toNat
  if c = 0 then 8 else c

/-- A pointer is followed. Pointers are only made from blocks in the list, so
the fault arm is never taken. -/
def derefBlock (blocks : List Block) (p : Nat) : Except Fault Block :=
  match blocks[p]? with
  | none => .error .overrun
  | some b => .ok b

/-- An op is read through the pointer `ops`. -/
def derefOp (b : Block) (ops : Nat) : Except Fault Op :=
  match b.ops[ops]? with
  | none => .error .overrun
  | some op => .ok op

/-- Where control goes at the end of a block: `current` becomes `link[mips->branched]`, and
the inner loop goes on `while (current && !previous->indirect && !mips->halted)`. -/
def afterBlock (b : Block) (mips : Mips) : BlockedControl :=
  match b.next mips.branched with
  | some current => if !b.indirect && !mips.halted then .inner current else .outer
  | none => .outer

def blockedStep (host : Host) (e : BlockedState) : Except Fault BlockedState :=
  let s := e.machine
  match e.control with
  | .outer =>
      if s.mips.halted then .ok { e with control := .returned }
      else do
        let (blocks, current) ←
          match hashFind e.blocks (s.reg MIPS_R_PC) with
          | some current => pure (e.blocks, current)
          | none => do
              -- `HASH_ADD`: the new block gets the next place in the list.
              let b ← decodeBlock s.mips s.memory
              pure (e.blocks ++ [b], e.blocks.length)
        return { e with
          control := .inner current
          blocks := linkPrevious blocks e.previous s.mips.branched current }
  | .inner current => do
      let b ← derefBlock e.blocks current
      return { e with
        control := .unrolled current 0 (firstCase b)
        machine := preIncrement b s }
  | .unrolled current ops case => do
      let b ← derefBlock e.blocks current
      let op ← derefOp b ops
      match op.op with
      -- A call through the terminator.
      | none => .error .emptyEntry
      | some i => do
          let s ← execute host i op.cir s
          return { e with
            -- The case labels fall through, down to the test behind `case 1`.
            control := if case = 1 then .test current (ops + 1)
              else .unrolled current (ops + 1) (case - 1)
            machine := s }
  | .test current ops => do
      let b ← derefBlock e.blocks current
      let op ← derefOp b ops
      return { e with
        -- `do` goes back to `case 8`, for a full turn of the unrolled loop.
        control := if op.op.isSome then .unrolled current ops 8 else .leave current }
  | .leave current => do
      let b ← derefBlock e.blocks current
      -- `NNPC` is where the transfer that ends the block goes.
      let s := s.setReg MIPS_R_PC (s.reg MIPS_R_NNPC)
      return { e with
        control := afterBlock b s.mips
        previous := some current
        machine := s }
  | .returned => .ok e

/-- `interpreter_blocked`, started at `BlockedState.start s`. -/
def interpreterBlocked (host : Host) : StepMachine Fault BlockedState where
  done e := match e.control with | .returned => true | _ => false
  step := blockedStep host

/-- The state `interpreter_blocked` starts in: no blocks, no previous block. -/
def BlockedState.start (s : Machine) : BlockedState := ⟨.outer, [], none, s⟩

/-- Control is at a call of an op. -/
def BlockedState.atOp (e : BlockedState) : Bool :=
  match e.control with | .unrolled _ _ _ => true | _ => false

/-- Control is at the start of a block. -/
def BlockedState.atBlock (e : BlockedState) : Bool :=
  match e.control with | .inner _ => true | _ => false

end MipsEngines
