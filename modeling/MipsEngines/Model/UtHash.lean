import MipsEngines.Model.Blocked

/-!
# `MipsEngines.Model.UtHash`: the hash table of the block engine

The macros of `uthash.h` that `blocked.c` uses, `HASH_FIND`, `HASH_ADD`, `HASH_DEL` and
`HASH_ITER`, with those they expand to, and the check `HASH_FSCK` of a debug build. The table
is a doubly linked list of all elements in the order they were added (`prev`, `next`), and
an array of buckets, each a doubly linked list of its own (`hh_prev`, `hh_next`).

The hash handle is a part of its element, so a pointer to a block is a pointer to its handle
as well: its place in the list of blocks. A handle that is not there, since its block was
freed, is `Fault.overrun`, and so is the table once it is freed. Memory is taken to be there
(`HASH_NONFATAL_OOM` is 0), and its sizes are `size_t`. The counters are `unsigned`: doubling
`2 ^ 31` buckets makes `num_buckets` 0, with an array of `2 ^ 32` buckets behind it. That
doubling also shifts by 32, which C does not define and which is 0 here. `Proofs.UtHash` is
about tables that were not doubled so often.

`BlockedState` keeps the blocks in a list that is searched by address. `HashedState` is the
engine with this table in its place.
-/

set_option autoImplicit false

namespace MipsEngines

open Lib

/-! ### `HASH_JEN` -/

/-- `HASH_JEN_MIX`. -/
def hashJenMix (a b c : U32) : U32 × U32 × U32 :=
  let a := (a - b - c) ^^^ (c >>> 13)
  let b := (b - c - a) ^^^ (a <<< 8)
  let c := (c - a - b) ^^^ (b >>> 13)
  let a := (a - b - c) ^^^ (c >>> 12)
  let b := (b - c - a) ^^^ (a <<< 16)
  let c := (c - a - b) ^^^ (b >>> 5)
  let a := (a - b - c) ^^^ (c >>> 3)
  let b := (b - c - a) ^^^ (a <<< 10)
  let c := (c - a - b) ^^^ (b >>> 15)
  (a, b, c)

/-- `sizeof(u32)`, the length of every key. -/
abbrev KEYLEN : U32 := 4

/-- `HASH_JEN` of a key of four bytes: the loop over twelve bytes is not entered, and the
`switch` starts at `case 4`. -/
def hashJen (key : U32) : U32 :=
  let byte := fun k => (byteOf key k).setWidth 32
  let hashv := 0xfeedbeef + KEYLEN
  let i := 0x9e3779b9 + (byte 3 <<< 24) + (byte 2 <<< 16) + (byte 1 <<< 8) + byte 0
  (hashJenMix i 0x9e3779b9 hashv).2.2

/-! ### The structures -/

/-- `UT_hash_handle`. `key` is what the pointer of that name points to, the `address` of the
block, which nothing stores to once the block is added. -/
structure UtHashHandle where
  prev : Option Nat
  next : Option Nat
  hhPrev : Option Nat
  hhNext : Option Nat
  key : U32
  keylen : U32
  hashv : U32
  deriving DecidableEq, Repr

/-- `UT_hash_bucket`. -/
structure UtHashBucket where
  hhHead : Option Nat
  count : U32
  expandMult : U32
  deriving DecidableEq, Repr

/-- `UT_hash_table`. -/
structure UtHashTable where
  buckets : List UtHashBucket
  numBuckets : U32
  log2NumBuckets : U32
  numItems : U32
  tail : Option Nat
  idealChainMaxlen : U32
  nonidealItems : U32
  ineffExpands : U32
  noexpand : Bool
  deriving DecidableEq, Repr

abbrev HASH_INITIAL_NUM_BUCKETS : U32 := 32
abbrev HASH_INITIAL_NUM_BUCKETS_LOG2 : U32 := 5
abbrev HASH_BKT_CAPACITY_THRESH : U32 := 10

/-- A bucket after `uthash_bzero`. -/
def UtHashBucket.zero : UtHashBucket := ⟨none, 0, 0⟩

/-- `head` is the variable `blocks` of `interpreter_blocked`, and `tbl` what the handles'
pointer of that name points to. -/
structure UtHash where
  head : Option Nat
  tbl : Option UtHashTable
  handles : Nat → Option UtHashHandle

namespace UtHash

/-- `block_t *blocks = NULL`. -/
def empty : UtHash := ⟨none, none, fun _ => none⟩

/-- A handle is read through a pointer. -/
def handleAt (h : UtHash) (p : Nat) : Except Fault UtHashHandle :=
  match h.handles p with
  | none => .error .overrun
  | some hh => .ok hh

def setHandle (h : UtHash) (p : Nat) (hh : UtHashHandle) : UtHash :=
  { h with handles := fun q => if q = p then some hh else h.handles q }

/-- A handle is changed through a pointer. -/
def modifyHandle (h : UtHash) (p : Nat) (f : UtHashHandle → UtHashHandle) :
    Except Fault UtHash := do
  let hh ← h.handleAt p
  return h.setHandle p (f hh)

/-- The same, through a pointer that may be `NULL`: nothing is done then. -/
def modifyHandle? (h : UtHash) (p : Option Nat) (f : UtHashHandle → UtHashHandle) :
    Except Fault UtHash :=
  match p with
  | none => .ok h
  | some p => h.modifyHandle p f

/-- `(head)->hh.tbl`. -/
def tableAt (h : UtHash) : Except Fault UtHashTable :=
  match h.head with
  | none => .error .unmapped
  | some p => do
      let _ ← h.handleAt p
      match h.tbl with
      | none => .error .overrun
      | some t => return t

def setTable (h : UtHash) (t : UtHashTable) : UtHash := { h with tbl := some t }

/-- `tbl->buckets[bkt]`. -/
def bucketAt (buckets : List UtHashBucket) (bkt : Nat) : Except Fault UtHashBucket :=
  match buckets[bkt]? with
  | none => .error .overrun
  | some b => .ok b

/-- `HASH_TO_BKT`. -/
def hashToBkt (hashv numBkts : U32) : Nat := (hashv &&& (numBkts - 1)).toNat

/-- No list of handles is longer, since no two elements have one key. -/
abbrev handleFuel : Nat := 2 ^ 32

/-! ### `HASH_FIND` -/

/-- The loop of `HASH_FIND_IN_BKT`, from the handle `out` on. -/
def hashFindInBkt (h : UtHash) (key hashv : U32) : Nat → Option Nat → Except Fault (Option Nat)
  | _, none => .ok none
  | 0, some _ => .error .diverge
  | fuel + 1, some out => do
      let hh ← h.handleAt out
      if hh.hashv = hashv ∧ hh.keylen = KEYLEN ∧ hh.key = key then return some out
      else hashFindInBkt h key hashv fuel hh.hhNext

/-- `HASH_FIND`. -/
def hashFind (h : UtHash) (key : U32) : Except Fault (Option Nat) :=
  match h.head with
  | none => .ok none
  | some _ => do
      let hashv := hashJen key
      let t ← h.tableAt
      let b ← bucketAt t.buckets (hashToBkt hashv t.numBuckets)
      hashFindInBkt h key hashv handleFuel b.hhHead

/-! ### `HASH_ADD` -/

/-- `HASH_MAKE_TABLE`. -/
def hashMakeTable (add : Nat) : UtHashTable where
  buckets := List.replicate HASH_INITIAL_NUM_BUCKETS.toNat .zero
  numBuckets := HASH_INITIAL_NUM_BUCKETS
  log2NumBuckets := HASH_INITIAL_NUM_BUCKETS_LOG2
  numItems := 0
  tail := some add
  idealChainMaxlen := 0
  nonidealItems := 0
  ineffExpands := 0
  noexpand := false

/-- `HASH_APPEND_LIST`. -/
def hashAppendList (h : UtHash) (add : Nat) : Except Fault UtHash := do
  let t ← h.tableAt
  let h ← h.modifyHandle add fun hh => { hh with next := none, prev := t.tail }
  match t.tail with
  | none => .error .unmapped
  | some tail => do
      let h ← h.modifyHandle tail fun hh => { hh with next := some add }
      return h.setTable { t with tail := some add }

/-- The loop variables of `HASH_EXPAND_BUCKETS`. -/
structure Expansion where
  hash : UtHash
  newBuckets : List UtHashBucket
  nonidealItems : U32

/-- One item goes to the front of its new bucket. -/
def expandItem (numBuckets idealChainMaxlen : U32) (e : Expansion) (thh : Nat)
    (hashv : U32) : Except Fault Expansion := do
  let bkt := hashToBkt hashv (numBuckets * 2)
  let newbkt ← bucketAt e.newBuckets bkt
  let newbkt := { newbkt with count := newbkt.count + 1 }
  let nonideal := decide (newbkt.count > idealChainMaxlen)
  -- The multiplier of a bucket that is too long keeps up with its length.
  let newbkt :=
    if nonideal ∧ newbkt.count > newbkt.expandMult * idealChainMaxlen then
      { newbkt with expandMult := newbkt.expandMult + 1 }
    else newbkt
  let hash ← e.hash.modifyHandle thh fun hh => { hh with hhPrev := none, hhNext := newbkt.hhHead }
  let hash ← hash.modifyHandle? newbkt.hhHead fun hh => { hh with hhPrev := some thh }
  return {
    hash := hash
    newBuckets := e.newBuckets.set bkt { newbkt with hhHead := some thh }
    nonidealItems := if nonideal then e.nonidealItems + 1 else e.nonidealItems }

/-- The loop over one old bucket, from the handle `thh` on. -/
def expandChain (numBuckets idealChainMaxlen : U32) :
    Nat → Option Nat → Expansion → Except Fault Expansion
  | _, none, e => .ok e
  | 0, some _, _ => .error .diverge
  | fuel + 1, some thh, e => do
      -- The pointer to the next item is taken before the item is moved.
      let hh ← e.hash.handleAt thh
      let e ← expandItem numBuckets idealChainMaxlen e thh hh.hashv
      expandChain numBuckets idealChainMaxlen fuel hh.hhNext e

/-- `HASH_EXPAND_BUCKETS`. -/
def hashExpandBuckets (h : UtHash) : Except Fault UtHash := do
  let t ← h.tableAt
  let idealChainMaxlen := (t.numItems >>> (t.log2NumBuckets + 1)) +
    if (t.numItems &&& (t.numBuckets * 2 - 1)) ≠ 0 then 1 else 0
  let e ← (List.range t.numBuckets.toNat).foldlM
    (fun e bkt => do
      let b ← bucketAt t.buckets bkt
      expandChain t.numBuckets idealChainMaxlen handleFuel b.hhHead e)
    ⟨h, List.replicate (t.numBuckets.toNat * 2) .zero, 0⟩
  let ineffExpands := if e.nonidealItems > t.numItems >>> 1 then t.ineffExpands + 1 else 0
  return e.hash.setTable { t with
    buckets := e.newBuckets
    numBuckets := t.numBuckets * 2
    log2NumBuckets := t.log2NumBuckets + 1
    idealChainMaxlen := idealChainMaxlen
    nonidealItems := e.nonidealItems
    ineffExpands := ineffExpands
    -- Two expansions in a row that did not help, and there are no more.
    noexpand := t.noexpand || decide (ineffExpands > 1) }

/-- `HASH_ADD_TO_BKT`. -/
def hashAddToBkt (h : UtHash) (bkt add : Nat) : Except Fault UtHash := do
  let t ← h.tableAt
  let b ← bucketAt t.buckets bkt
  let h ← h.modifyHandle add fun hh => { hh with hhNext := b.hhHead, hhPrev := none }
  let h ← h.modifyHandle? b.hhHead fun hh => { hh with hhPrev := some add }
  let h := h.setTable { t with
    buckets := t.buckets.set bkt { b with count := b.count + 1, hhHead := some add } }
  if b.count + 1 ≥ (b.expandMult + 1) * HASH_BKT_CAPACITY_THRESH ∧ t.noexpand = false then
    hashExpandBuckets h
  else return h

/-- `HASH_ADD` of the element `add` with the key `key`. -/
def hashAdd (h : UtHash) (add : Nat) (key : U32) : Except Fault UtHash := do
  let hashv := hashJen key
  let hh : UtHashHandle :=
    { prev := none, next := none, hhPrev := none, hhNext := none, key, keylen := KEYLEN, hashv }
  let h := h.setHandle add hh
  let h ← match h.head with
    | none => pure { h with head := some add, tbl := some (hashMakeTable add) }
    | some _ => hashAppendList h add
  -- `HASH_ADD_TO_TABLE`.
  let t ← h.tableAt
  let h := h.setTable { t with numItems := t.numItems + 1 }
  hashAddToBkt h (hashToBkt hashv t.numBuckets) add

/-! ### `HASH_DEL` and `HASH_ITER` -/

/-- `HASH_DEL_IN_BKT`, on the handle `delhh` at `del`. -/
def hashDelInBkt (h : UtHash) (bkt del : Nat) (delhh : UtHashHandle) : Except Fault UtHash := do
  let t ← h.tableAt
  let b ← bucketAt t.buckets bkt
  let b := { b with
    count := b.count - 1
    hhHead := if b.hhHead = some del then delhh.hhNext else b.hhHead }
  let h := h.setTable { t with buckets := t.buckets.set bkt b }
  let h ← h.modifyHandle? delhh.hhPrev fun hh => { hh with hhNext := delhh.hhNext }
  h.modifyHandle? delhh.hhNext fun hh => { hh with hhPrev := delhh.hhPrev }

/-- `HASH_DEL`. The last element takes the table with it. -/
def hashDelete (h : UtHash) (del : Nat) : Except Fault UtHash := do
  let delhh ← h.handleAt del
  let t ← h.tableAt
  if delhh.prev = none ∧ delhh.next = none then
    return { h with head := none, tbl := none }
  else do
    let h := h.setTable { t with tail := if t.tail = some del then delhh.prev else t.tail }
    let h ← match delhh.prev with
      | none => pure { h with head := delhh.next }
      | some q => h.modifyHandle q fun hh => { hh with next := delhh.next }
    let h ← h.modifyHandle? delhh.next fun hh => { hh with prev := delhh.prev }
    let h ← hashDelInBkt h (hashToBkt delhh.hashv t.numBuckets) del delhh
    let t ← h.tableAt
    return h.setTable { t with numItems := t.numItems - 1 }

/-- `free(b)`: the handle goes with its block. -/
def free (h : UtHash) (p : Nat) : UtHash :=
  { h with handles := fun q => if q = p then none else h.handles q }

/-- The pointer to the next element, `NULL` for `NULL`. -/
def nextOf (h : UtHash) (p : Option Nat) : Except Fault (Option Nat) :=
  match p with
  | none => .ok none
  | some p => do
      let hh ← h.handleAt p
      return hh.next

/-- The `HASH_ITER` at the end of `interpreter_blocked`, from the element `b` on, with `t` behind
it. `freed` lists the blocks freed so far, each with its ops. -/
def freeLoop : Nat → (b t : Option Nat) → UtHash → (freed : List Nat) →
    Except Fault (UtHash × List Nat)
  | _, none, _, h, freed => .ok (h, freed)
  | 0, some _, _, _, _ => .error .diverge
  | fuel + 1, some b, t, h, freed => do
      let h ← h.hashDelete b
      let h := h.free b
      let t' ← h.nextOf t
      freeLoop fuel t t' h (freed ++ [b])

/-- The same from the start. An empty table has no element to visit. -/
def freeBlocks (h : UtHash) : Except Fault (UtHash × List Nat) := do
  let t ← h.nextOf h.head
  freeLoop handleFuel h.head t h []

/-! ### `HASH_FSCK` -/

/-- The loops of `HASH_FSCK`: the length of a list, checked to point back. `HASH_OOPS` exits. -/
def fsckChain (h : UtHash) (next prev : UtHashHandle → Option Nat) :
    Nat → (back thh : Option Nat) → Except Fault U32
  | _, _, none => .ok 0
  | 0, _, some _ => .error .diverge
  | fuel + 1, back, some thh => do
      let hh ← h.handleAt thh
      if back ≠ prev hh then .error .abort
      else do
        let count ← fsckChain h next prev fuel (some thh) (next hh)
        return count + 1

/-- `HASH_FSCK`: every bucket has as many items as it says, all buckets together as many as the
table says, and so has the list of all elements. -/
def hashFsck (h : UtHash) : Except Fault Unit :=
  match h.head with
  | none => .ok ()
  | some _ => do
      let t ← h.tableAt
      let count ← (List.range t.numBuckets.toNat).foldlM
        (fun count bkt => do
          let b ← bucketAt t.buckets bkt
          let bktCount ←
            fsckChain h UtHashHandle.hhNext UtHashHandle.hhPrev handleFuel none b.hhHead
          if b.count ≠ bktCount then .error .abort else return count + bktCount)
        0
      if count ≠ t.numItems then .error .abort
      else do
        let count ← fsckChain h UtHashHandle.next UtHashHandle.prev handleFuel none h.head
        if count ≠ t.numItems then .error .abort else return ()

end UtHash

/-! ### The engine on the table -/

/-- A state of `interpreter_blocked`, with the hash table beside the blocks it points to. -/
structure HashedState extends BlockedState where
  hash : UtHash

/-- The steps of `interpreter_blocked`. Only the head of the outer loop uses the table. -/
def hashedStep (host : Host) (e : HashedState) : Except Fault HashedState :=
  let s := e.machine
  match e.control with
  | .outer =>
      if s.mips.halted then .ok { e with control := .returned }
      else do
        let (blocks, hash, current) ←
          match ← e.hash.hashFind (s.reg MIPS_R_PC) with
          | some current => pure (e.blocks, e.hash, current)
          | none => do
              let b ← decodeBlock s.mips s.memory
              let hash ← e.hash.hashAdd e.blocks.length b.address
              pure (e.blocks ++ [b], hash, e.blocks.length)
        return { e with
          control := .inner current
          blocks := linkPrevious blocks e.previous s.mips.branched current
          hash := hash }
  | _ => do
      let e' ← blockedStep host e.toBlockedState
      return { e' with hash := e.hash }

/-- `interpreter_blocked` up to its last loop, started at `HashedState.start s`. -/
def interpreterHashed (host : Host) : StepMachine Fault HashedState where
  done e := match e.control with | .returned => true | _ => false
  step := hashedStep host

def HashedState.start (s : Machine) : HashedState := { BlockedState.start s with hash := .empty }

end MipsEngines
