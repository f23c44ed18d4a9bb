import MipsEngines.Model.BlockedHeap
import MipsEngines.Proofs.EndlessChain
import MipsEngines.Proofs.HashedBlocks

/-!
# `MipsEngines.Proofs.BlockedHeap`: the block engine gives back what it allocates

`Model.BlockedHeap` has the arrays of `DARRAY_PUSH`, the blocks behind pointers, and the loop that
frees both. `Growing` is the invariant of an array under construction: the ops pushed are at its
front, the rest of it is not stored yet, and `size` and `capacity` count both. A chain that ends
has at most `2 ^ 30 + 2` ops, and their array doubles `capacity` up to `2 ^ 31` at most. On one
that never ends `capacity` wraps, and the next op goes where there is no array. `HostedInv` is
the invariant of the engine: every block has its array, and the two of all blocks are what came
to the heap, each once.

`hostedBlocks_lockstep` says that the engine with pointers is the one without, so it reads no op
that was not stored, and `hostedBlocks_freed` that its last loop leaves the heap as it was.
-/

set_option autoImplicit false

namespace MipsEngines

open Lib StepMachine

variable {base heap heap' : EngineHeap} {a : DArray} {ops : List Op} {p : Nat}

/-! ### Arrays of ops -/

/-- An array of `capacity` entries, of which `ops` are stored. -/
def opArray (ops : List Op) (capacity : Nat) : List (Option Op) :=
  ops.map some ++ List.replicate (capacity - ops.length) none

theorem length_opArray {capacity : Nat} (h : ops.length ≤ capacity) :
    (opArray ops capacity).length = capacity := by
  simp [opArray, h]

theorem filterMap_opArray (ops : List Op) (capacity : Nat) :
    (opArray ops capacity).filterMap id = ops := by
  simp [opArray, List.filterMap_append, List.filterMap_map]

theorem getElem?_opArray (ops : List Op) (capacity k : Nat) :
    (opArray ops capacity)[k]?.join = ops[k]? := by
  rw [opArray]
  rcases Nat.lt_or_ge k ops.length with hk | hk
  · rw [List.getElem?_append_left (by simpa using hk)]
    simp [hk]
  · rw [List.getElem?_append_right (by simpa using hk), List.getElem?_replicate,
      List.getElem?_eq_none hk]
    split_ifs <;> rfl

/-- `realloc` of a full array. -/
theorem take_opArray {capacity : Nat} (h : ops.length ≤ capacity) {capacity' : Nat}
    (h' : capacity ≤ capacity') : (opArray ops capacity).take capacity'
      ++ List.replicate (capacity' - (opArray ops capacity).length) none
        = opArray ops capacity' := by
  rw [List.take_of_length_le (by rw [length_opArray h]; exact h'), length_opArray h, opArray,
    opArray, List.append_assoc, List.replicate_append_replicate]
  congr 2
  omega

/-- The store of `DARRAY_PUSH`. -/
theorem set_opArray {capacity : Nat} (h : ops.length < capacity) (op : Op) :
    (opArray ops capacity).set ops.length (some op) = opArray (ops ++ [op]) capacity := by
  obtain ⟨k, hk⟩ : ∃ k, capacity - ops.length = k + 1 := ⟨_, (Nat.succ_pred_eq_of_pos (by omega)).symm⟩
  have hk' : capacity - (ops.length + 1) = k := by omega
  simp [opArray, hk, hk', List.set_append_right, List.replicate_succ]

/-! ### `DARRAY_PUSH` -/

/-- The array of a block under construction, on a heap that has it besides the blocks of `base`. -/
structure Growing (base heap : EngineHeap) (a : DArray) (ops : List Op) : Prop where
  owns : BlockHeap.Owns base heap [a.ops]
  block : heap.block a.ops = some (.ops (opArray ops a.capacity.toNat))
  size : a.size = BitVec.ofNat 32 ops.length
  capacity : ops.length ≤ a.capacity.toNat
  room : a.capacity.toNat ≤ max 32 (2 * ops.length)
  pow : ∃ k, a.capacity.toNat = 2 ^ k

theorem opsAt_eq {entries : List (Option Op)} (h : heap.block p = some (.ops entries)) :
    opsAt heap p = .ok entries := by
  unfold opsAt
  rw [h]

theorem freeBlock_eq (h : (heap.block p).isSome) : freeBlock heap p = .ok (heap.remove p) := by
  unfold freeBlock
  rw [BlockHeap.free_eq h]

/-- The old array is freed once its ops are in the new one, as far as there is room. -/
theorem reallocOps_spec (hg : Growing base heap a ops) (capacity : U32) :
    ∃ heap', reallocOps heap a.ops capacity = .ok (heap', heap.next) ∧
      BlockHeap.Owns base heap' [heap.next] ∧
      heap'.block heap.next = some (.ops ((opArray ops a.capacity.toNat).take capacity.toNat ++
        List.replicate (capacity.toNat - (opArray ops a.capacity.toNat).length) none)) := by
  generalize hmoved : (opArray ops a.capacity.toNat).take capacity.toNat ++
    List.replicate (capacity.toNat - (opArray ops a.capacity.toNat).length) none = moved
  have hlive : (heap.block a.ops).isSome := hg.owns.live _ (by simp)
  have hne : heap.next ≠ a.ops := by
    intro h
    exact hg.owns.next_notMem (by simp [h])
  have hlive' : ((heap.alloc (.ops moved)).block a.ops).isSome := by
    rw [BlockHeap.block_alloc_of_isSome hlive]
    exact hlive
  refine ⟨(heap.alloc (.ops moved)).remove a.ops, ?_, ?_, ?_⟩
  · rw [reallocOps, opsAt_eq hg.block, ok_bind]
    dsimp only
    rw [hmoved, freeBlock_eq hlive']
    rfl
  · exact ((hg.owns.alloc _).perm (List.Perm.swap _ _ _)).remove
  · rw [BlockHeap.block_remove_of_ne hne, BlockHeap.block_alloc_next]

/-- `size` and `capacity` are equal just when the array is full. -/
theorem Growing.full_iff (hg : Growing base heap a ops) (hlt : ops.length < 2 ^ 32) :
    a.size = a.capacity ↔ ops.length = a.capacity.toNat := by
  rw [hg.size, BitVec.toNat_eq, BitVec.toNat_ofNat, Nat.mod_eq_of_lt hlt]

/-- There is room for one more op then. -/
theorem darrayGrow_spec (hg : Growing base heap a ops) (hlt : ops.length < 2 ^ 31) :
    ∃ heap' a', darrayGrow heap a = .ok (heap', a') ∧ Growing base heap' a' ops ∧
      ops.length < a'.capacity.toNat := by
  have hfull := hg.full_iff (by omega)
  rw [darrayGrow]
  split_ifs with h
  · have hlength := hfull.mp h
    obtain ⟨k, hk⟩ := hg.pow
    have hpos : 0 < a.capacity.toNat := hk ▸ Nat.two_pow_pos k
    have hdouble : (a.capacity * 2).toNat = 2 * ops.length := by
      rw [BitVec.toNat_mul, hlength]
      show a.capacity.toNat * 2 % 2 ^ 32 = _
      omega
    have hroom : ops.length < (a.capacity * 2).toNat := by omega
    have hpow : (a.capacity * 2).toNat = 2 ^ (k + 1) := by
      rw [Nat.pow_succ, ← hk]
      omega
    have hbound : (a.capacity * 2).toNat ≤ max 32 (2 * ops.length) := by omega
    obtain ⟨heap', hrun, howns, hblock⟩ := reallocOps_spec hg (a.capacity * 2)
    rw [take_opArray hg.capacity (by omega)] at hblock
    refine ⟨heap', ⟨heap.next, a.size, a.capacity * 2⟩, ?_, ?_, hroom⟩
    · dsimp only
      rw [hrun]
      rfl
    · exact ⟨howns, hblock, hg.size, Nat.le_of_lt hroom, hbound, k + 1, hpow⟩
  · exact ⟨heap, a, rfl, hg, Nat.lt_of_le_of_ne hg.capacity (mt hfull.mpr h)⟩

/-- A push puts its op behind the others. -/
theorem darrayPush_spec (hg : Growing base heap a ops) (hlt : ops.length < 2 ^ 31) (op : Op) :
    ∃ heap' a', darrayPush heap a op = .ok (heap', a') ∧ Growing base heap' a' (ops ++ [op]) := by
  obtain ⟨heap', a', hrun, hg', hroom⟩ := darrayGrow_spec hg hlt
  have hsize : a'.size.toNat = ops.length := by
    rw [hg'.size, BitVec.toNat_ofNat, Nat.mod_eq_of_lt (by omega)]
  refine ⟨heap'.store a'.ops (.ops (opArray (ops ++ [op]) a'.capacity.toNat)),
    { a' with size := a'.size + 1 }, ?_, ?_⟩
  · rw [darrayPush, hrun, ok_bind]
    dsimp only
    rw [opsAt_eq hg'.block, ok_bind, hsize, length_opArray hg'.capacity, if_pos hroom,
      set_opArray hroom]
    rfl
  · have hlength : (ops ++ [op]).length = ops.length + 1 := List.length_append
    have hold := hg'.room
    refine ⟨hg'.owns.store (by simp) _, BlockHeap.block_store_self (by simp [hg'.block]), ?_,
      by rw [hlength]; exact hroom, ?_, hg'.pow⟩
    · rw [hlength, hg'.size, BitVec.ofNat_add]
      rfl
    · rw [hlength]
      exact Nat.le_trans hold (by omega)

/-- Once `2 ^ 31` ops are there, twice the room is none: `capacity` wraps, `realloc` leaves nothing,
and the op goes past its end. -/
theorem darrayPush_overrun (hg : Growing base heap a ops) (hfull : ops.length = 2 ^ 31) (op : Op) :
    darrayPush heap a op = .error .overrun := by
  have hcapacity : a.capacity = BitVec.ofNat 32 (2 ^ 31) := by
    obtain ⟨k, hk⟩ := hg.pow
    have hlt : 2 ^ k < 2 ^ 32 := hk ▸ a.capacity.isLt
    have hge : 2 ^ 31 ≤ 2 ^ k := hk ▸ hfull ▸ hg.capacity
    rw [Nat.pow_lt_pow_iff_right (by decide)] at hlt
    rw [Nat.pow_le_pow_iff_right (by decide)] at hge
    obtain rfl : k = 31 := Nat.le_antisymm (Nat.le_of_lt_succ hlt) hge
    exact BitVec.eq_of_toNat_eq hk
  have hsize : a.size = a.capacity := by rw [hg.size, hfull, hcapacity]
  have hzero : a.capacity * 2 = 0 := by
    rw [hcapacity]
    decide
  obtain ⟨heap', hrun, -, hblock⟩ := reallocOps_spec hg 0
  rw [show (0 : U32).toNat = 0 from rfl, Nat.zero_sub] at hblock
  rw [darrayPush, darrayGrow, if_pos hsize]
  dsimp only
  rw [hzero, hrun, ok_bind]
  show (opsAt heap' heap.next >>= _) = _
  rw [opsAt_eq hblock]
  rfl

/-! ### `decode_block` -/

/-- The chain of labels pushes what it would append, and fails alike, if it ends. -/
theorem decodeLoopInto_agrees (memory : Memory) (halted : Bool) {fuel : Nat} {pc : U32}
    {branched indirect : Bool} (hg : Growing base heap a ops) (hlt : ops.length + fuel < 2 ^ 31)
    (hends : decodeLoop memory halted fuel pc branched indirect ops ≠ .error .diverge)
    (extra : Nat) :
    Agree (fun r t => Growing base r.1 r.2.1 t.1 ∧ t.1.length < 2 ^ 31 ∧ r.2.2 = t.2)
      (decodeLoopInto memory halted (fuel + extra) pc branched indirect heap a)
      (decodeLoop memory halted fuel pc branched indirect ops) := by
  induction fuel generalizing pc branched indirect heap a ops with
  | zero => exact absurd rfl hends
  | succ fuel ih =>
      rw [Nat.succ_add]
      unfold decodeLoopInto decodeLoop
      rw [decodeLoop] at hends
      cases hread : memoryReadU32 memory pc with
      | error e =>
          simp only [error_bind]
          exact .error e
      | ok cir =>
          cases hdispatch : tableDispatch cir with
          | error e =>
              simp only [ok_bind, hdispatch, error_bind]
              exact .error e
          | ok i =>
              obtain ⟨heap', a', hrun, hg'⟩ := darrayPush_spec hg (by omega) ⟨cir, some i⟩
              have hlength : (ops ++ [(⟨cir, some i⟩ : Op)]).length = ops.length + 1 :=
                List.length_append
              have hnext : (ops ++ [(⟨cir, some i⟩ : Op)]).length + fuel < 2 ^ 31 := by omega
              simp only [hread, hdispatch, hrun, ok_bind] at hends ⊢
              split_ifs at hends ⊢
              · exact ih hg' hnext hends
              · exact ih hg' hnext hends
              · exact ih hg' hnext hends
              · exact .ok ⟨hg', Nat.lt_of_le_of_lt (Nat.le_add_right _ _) hnext, rfl⟩

/-- If it does not, the pushes go on until the array is gone. -/
theorem decodeLoopInto_overrun {memory : Memory} {halted branched : Bool} {fuel : Nat} {pc : U32}
    (hendless : Endless memory halted branched pc) (indirect : Bool)
    (hg : Growing base heap a ops) (hfuel : ops.length + fuel = pushFuel) (hroom : 0 < fuel) :
    decodeLoopInto memory halted fuel pc branched indirect heap a = .error .overrun := by
  induction fuel generalizing pc branched indirect heap a ops with
  | zero => cases hroom
  | succ fuel ih =>
      obtain ⟨c, ⟨cir, i, hread, hdispatch, hcontrol⟩, hflags, hnext⟩ := hendless.step
      rw [decodeLoopInto, hread, ok_bind, hdispatch, ok_bind]
      have hpush : pushFuel = 2 ^ 31 + 1 := rfl
      rcases Nat.lt_or_ge ops.length (2 ^ 31) with hlt | hge
      · obtain ⟨heap', a', hrun, hg'⟩ := darrayPush_spec hg hlt ⟨cir, some i⟩
        have hlength : (ops ++ [(⟨cir, some i⟩ : Op)]).length = ops.length + 1 := List.length_append
        have hrest := fun ind => ih hnext ind hg' (by omega) (by omega)
        rw [hrun, ok_bind]
        dsimp only
        cases c with
        | true =>
            split_ifs
            · exact hrest _
            · exact hrest _
        | false =>
            obtain ⟨rfl, rfl⟩ := hflags rfl
            rw [hcontrol, isIndirect_of_not_control hcontrol, if_neg (by decide),
              if_neg (by decide), if_pos (by decide)]
            exact hrest _
      · rw [darrayPush_overrun hg (by omega)]
        rfl

/-- A block is there, and so is its array, which has room for at most twice its ops, or for the
first 32. -/
structure HostedBlock.Stored (heap : EngineHeap) (b : HostedBlock) : Prop where
  self : heap.block b.self = some .block
  array : ∃ ops capacity, heap.block b.ops = some (.ops (opArray ops capacity)) ∧
    ops.length ≤ capacity ∧ capacity ≤ max 32 (2 * ops.length) ∧ b.size = BitVec.ofNat 32 ops.length

theorem HostedBlock.view_ops {b : HostedBlock} {capacity : Nat}
    (h : heap.block b.ops = some (.ops (opArray ops capacity))) : (b.view heap).ops = ops := by
  simp only [view, opsAt_eq h, filterMap_opArray]

theorem HostedBlock.view_congr {b : HostedBlock} (h : heap'.block b.ops = heap.block b.ops) :
    b.view heap' = b.view heap := by
  simp only [view, opsAt, h]

theorem growing_start (heap : EngineHeap) : Growing heap
    (heap.alloc (.ops (List.replicate INITIAL_CAPACITY.toNat none)))
    ⟨heap.next, 0, INITIAL_CAPACITY⟩ [] where
  owns := (BlockHeap.Owns.nil heap).alloc _
  block := BlockHeap.block_alloc_next
  size := rfl
  capacity := Nat.zero_le _
  room := Nat.le_refl 32
  pow := ⟨5, rfl⟩

/-- A new block and its array are what `decode_block` allocates, and the block is the one it
would be without pointers. -/
theorem decodeBlockInto_agrees {mips : Mips} {memory : Memory}
    (hends : decodeBlock mips memory ≠ .error .diverge) (heap : EngineHeap) :
    Agree (fun r b => BlockHeap.Owns heap r.1 [r.2.ops, r.2.self] ∧ r.2.Stored r.1 ∧ r.2.view r.1 = b)
      (decodeBlockInto mips memory heap) (decodeBlock mips memory) := by
  have hloop : decodeLoop memory mips.halted decodeFuel (mips.r MIPS_R_PC) false false []
      ≠ .error .diverge := by
    intro h
    rw [decodeBlock, h] at hends
    exact hends rfl
  refine (decodeLoopInto_agrees memory mips.halted (growing_start heap) (by decide) hloop
    (pushFuel - decodeFuel)).bind ?_
  rintro ⟨heap₁, a₁, indirect, cir⟩ ⟨ops, _⟩ ⟨hg₁, hlt, rfl⟩
  obtain ⟨heap₂, a₂, hrun, hg₂⟩ := darrayPush_spec hg₁ hlt ⟨cir, none⟩
  dsimp only
  rw [hrun, ok_bind]
  have hlive : (heap₂.block a₂.ops).isSome := hg₂.owns.live _ (by simp)
  have harray := (BlockHeap.block_alloc_of_isSome (b := .block) hlive).trans hg₂.block
  refine .ok ⟨(hg₂.owns.alloc .block).perm (List.Perm.swap _ _ _), ?_, ?_⟩
  · exact ⟨BlockHeap.block_alloc_next, _, _, harray, hg₂.capacity, hg₂.room, hg₂.size⟩
  · rw [HostedBlock.view]
    dsimp only
    rw [opsAt_eq harray, hg₂.size]
    dsimp only
    rw [filterMap_opArray]

/-- The chain of labels that `decode_block` follows from `s` on never ends. -/
def EndlessChain (s : Machine) : Prop :=
  ∀ fuel, decodeLoop s.memory s.mips.halted fuel (s.reg MIPS_R_PC) false false []
    = .error .diverge

/-- Such a chain takes the array with it. -/
theorem decodeBlockInto_overrun {s : Machine} (h : decodeBlock s.mips s.memory = .error .diverge)
    (heap : EngineHeap) :
    decodeBlockInto s.mips s.memory heap = .error .overrun ∧ EndlessChain s := by
  have hloop : decodeLoop s.memory s.mips.halted decodeFuel (s.reg MIPS_R_PC) false false []
      = .error .diverge := by
    rcases bind_eq_error.mp h with h | ⟨_, -, h⟩
    · exact h
    · cases h
  have hendless := endless_of_diverge hloop (Nat.le_refl _)
  have hoverrun := decodeLoopInto_overrun hendless false (growing_start heap) (Nat.zero_add _)
    (Nat.succ_pos _)
  refine ⟨?_, fun fuel => hendless.diverge fuel false []⟩
  rw [decodeBlockInto]
  dsimp only
  show (decodeLoopInto s.memory s.mips.halted pushFuel (s.reg MIPS_R_PC) false false _ _ >>= _) = _
  rw [hoverrun]
  rfl

/-! ### The invariant -/

/-- What a block has on the heap, in the order it is freed. -/
def HostedBlock.pointers (b : HostedBlock) : List Nat := [b.ops, b.self]

/-- The state without its pointers. -/
def HostedState.view (e : HostedState) : HashedState where
  control := e.control
  blocks := e.blocks.map (HostedBlock.view e.heap)
  previous := e.previous
  machine := e.machine
  hash := e.hash

/-- The blocks are there with their arrays, and nothing else came to the heap. -/
structure HeapInv (base heap : EngineHeap) (blocks : List HostedBlock) : Prop where
  stored : ∀ b ∈ blocks, b.Stored heap
  owns : BlockHeap.Owns base heap (blocks.flatMap HostedBlock.pointers)

/-- The previous block is one of them. -/
structure HostedInv (base : EngineHeap) (e : HostedState) : Prop where
  previous : ∀ p, e.previous = some p → p < e.blocks.length
  heap : HeapInv base e.heap e.blocks

theorem heapInv_nil (base : EngineHeap) : HeapInv base base [] where
  stored := by simp
  owns := .nil base

theorem hostedInv_start (s : Machine) (base : EngineHeap) : HostedInv base (.start s base) where
  previous := fun _ hp => nomatch hp
  heap := heapInv_nil base

section Blocks

variable {blocks : List HostedBlock} {b : HostedBlock}

/-- A new block leaves the others as they are. -/
theorem HeapInv.concat (hi : HeapInv base heap blocks)
    (ho : BlockHeap.Owns heap heap' [b.ops, b.self]) (hb : b.Stored heap') :
    HeapInv base heap' (blocks ++ [b]) ∧
      blocks.map (HostedBlock.view heap') = blocks.map (HostedBlock.view heap) := by
  have hsame : ∀ c ∈ blocks, ∀ p ∈ c.pointers, heap'.block p = heap.block p := by
    intro c hc p hp
    refine ho.rest p (ho.notMem (hi.owns.live p ?_))
    exact List.mem_flatMap.mpr ⟨c, hc, hp⟩
  refine ⟨⟨?_, ?_⟩, List.map_congr_left fun c hc => ?_⟩
  · intro c hc
    rcases List.mem_append.mp hc with hc | hc
    · obtain ⟨hself, ops, capacity, harray, hrest⟩ := hi.stored c hc
      refine ⟨(hsame c hc _ (by simp [HostedBlock.pointers])).trans hself, ops, capacity, ?_, hrest⟩
      exact (hsame c hc _ (by simp [HostedBlock.pointers])).trans harray
    · rw [List.mem_singleton.mp hc]
      exact hb
  · rw [List.flatMap_append]
    exact hi.owns.append ho
  · exact HostedBlock.view_congr (hsame c hc _ (by simp [HostedBlock.pointers]))

/-- A pointer is followed to a block that is there. -/
theorem derefHosted_agrees (hi : HeapInv base heap blocks) (p : Nat) :
    Agree (fun b c => blocks[p]? = some b ∧ b.view heap = c) (derefHosted heap blocks p)
      (derefBlock (blocks.map (HostedBlock.view heap)) p) := by
  unfold derefHosted derefBlock
  rw [List.getElem?_map]
  cases hb : blocks[p]? with
  | none => exact .error _
  | some b =>
      have hmem := List.mem_of_getElem? hb
      simp only [(hi.stored b hmem).self, Option.map_some]
      exact .ok ⟨rfl, rfl⟩

/-- An op is read where one was stored. -/
theorem opHosted_eq (hb : b.Stored heap) (k : Nat) :
    opHosted heap b k = derefOp (b.view heap) k := by
  obtain ⟨-, ops, capacity, harray, -⟩ := hb
  unfold opHosted derefOp
  rw [HostedBlock.view_ops harray, opsAt_eq harray, ok_bind, ← getElem?_opArray ops capacity k]
  cases (opArray ops capacity)[k]? with
  | none => rfl
  | some entry => cases entry <;> rfl

/-- A patched link is no matter of the heap. -/
theorem HeapInv.set (hi : HeapInv base heap blocks) {p : Nat} (hb : blocks[p]? = some b)
    (next : Bool → Option Nat) : HeapInv base heap (blocks.set p { b with next := next }) := by
  obtain ⟨hlt, hget⟩ := List.getElem?_eq_some_iff.mp hb
  refine ⟨fun c hc => ?_, ?_⟩
  · rcases List.mem_or_eq_of_mem_set hc with hc | rfl
    · exact hi.stored c hc
    · obtain ⟨hself, harray⟩ := hi.stored b (List.mem_of_getElem? hb)
      exact ⟨hself, harray⟩
  · have hlt' : p < (blocks.map HostedBlock.pointers).length := by simpa using hlt
    have hpointers : HostedBlock.pointers { b with next := next }
        = (blocks.map HostedBlock.pointers)[p] := by
      simp [HostedBlock.pointers, hget]
    rw [List.flatMap_def, List.map_set, hpointers, List.set_getElem_self, ← List.flatMap_def]
    exact hi.owns

/-- The link is patched as it would be without pointers. -/
theorem map_view_link {p : Nat} (hb : blocks[p]? = some b) (branched : Bool) (current : Nat) :
    linkPrevious (blocks.map (HostedBlock.view heap)) (some p) branched current
      = (if b.indirect then blocks
        else blocks.set p { b with
          next := fun i => if i = branched then some current else b.next i }).map
            (HostedBlock.view heap) := by
  have hlt := (List.getElem?_eq_some_iff.mp hb).1
  refine List.ext_getElem? fun q => ?_
  rw [getElem?_linkPrevious, List.getElem?_map]
  by_cases hq : p = q
  · subst hq
    rw [hb]
    cases hindirect : (b.view heap).indirect with
    | true => simp [show b.indirect = true from hindirect, hb, hindirect]
    | false =>
        rw [if_neg (by simp [show b.indirect = false from hindirect]), Option.map_some,
          Option.map_some, if_pos ⟨rfl, hindirect⟩, List.map_set, List.getElem?_set_self]
        · rfl
        · simpa using hlt
  · simp only [Option.some.injEq, hq, false_and, if_false]
    split_ifs
    · simp [Function.comp_def]
    · simp [Function.comp_def, hq]

theorem linkHosted_spec (hi : HeapInv base heap blocks) {previous : Option Nat}
    (hprevious : ∀ p, previous = some p → p < blocks.length) (branched : Bool)
    (current : Nat) :
    ∃ blocks', linkHosted heap blocks previous branched current = .ok blocks' ∧
      HeapInv base heap blocks' ∧ blocks'.length = blocks.length ∧ blocks'.map (HostedBlock.view heap)
        = linkPrevious (blocks.map (HostedBlock.view heap)) previous branched current := by
  cases previous with
  | none => exact ⟨blocks, rfl, hi, rfl, rfl⟩
  | some p =>
      obtain ⟨b, hb⟩ : ∃ b, blocks[p]? = some b :=
        ⟨_, List.getElem?_eq_getElem (hprevious p rfl)⟩
      have hderef : derefHosted heap blocks p = .ok b := by
        simp only [derefHosted, hb, (hi.stored b (List.mem_of_getElem? hb)).self]
      refine ⟨_, by rw [linkHosted, hderef]; rfl, ?_, ?_, (map_view_link hb branched current).symm⟩
      · split_ifs
        · exact hi
        · exact hi.set hb _
      · split_ifs
        · rfl
        · exact List.length_set

end Blocks

/-! ### One step -/

section Step

variable {host : Host} {e : HostedState}

/-- The outer loop, once it has its block: the link is patched, and the block is entered. -/
theorem enter_agrees {blocks : List HostedBlock} (hi : HeapInv base heap blocks)
    (hprevious : ∀ p, e.previous = some p → p < blocks.length) (hash : UtHash) (current : Nat) :
    Agree (fun f g => HostedState.view f = g ∧ HostedInv base f)
      (do
        let blocks ← linkHosted heap blocks e.previous e.machine.mips.branched current
        return { e with control := .inner current, blocks, hash, heap })
      (.ok { e.view with
        control := .inner current
        blocks := linkPrevious (blocks.map (HostedBlock.view heap)) e.previous
          e.machine.mips.branched current
        hash := hash }) := by
  obtain ⟨blocks', hrun, hi', hlength, hview⟩ :=
    linkHosted_spec hi hprevious e.machine.mips.branched current
  rw [hrun, ← hview]
  refine .ok ⟨rfl, fun p hp => ?_, hi'⟩
  rw [hlength]
  exact hprevious p hp

/-- What the outer loop does with what it finds in the table, unless it has to decode a chain that
never ends. -/
theorem found_agrees (hi : HostedInv base e) (found : Option Nat)
    (hends : found = none → decodeBlock e.machine.mips e.machine.memory ≠ .error .diverge) :
    Agree (fun f g => HostedState.view f = g ∧ HostedInv base f)
      (do
        let (blocks, hash, heap, current) ←
          match found with
          | some current => pure (e.blocks, e.hash, e.heap, current)
          | none => do
              let (heap, b) ← decodeBlockInto e.machine.mips e.machine.memory e.heap
              let hash ← e.hash.hashAdd e.blocks.length b.address
              pure (e.blocks ++ [b], hash, heap, e.blocks.length)
        let blocks ← linkHosted heap blocks e.previous e.machine.mips.branched current
        return { e with control := .inner current, blocks, hash, heap })
      (do
        let (blocks, hash, current) ←
          match found with
          | some current => pure (e.view.blocks, e.hash, current)
          | none => do
              let b ← decodeBlock e.machine.mips e.machine.memory
              let hash ← e.hash.hashAdd e.view.blocks.length b.address
              pure (e.view.blocks ++ [b], hash, e.view.blocks.length)
        return { e.view with
          control := .inner current
          blocks := linkPrevious blocks e.previous e.machine.mips.branched current
          hash := hash }) := by
  cases found with
  | some current => exact enter_agrees hi.heap hi.previous e.hash current
  | none =>
      refine (decodeBlockInto_agrees (hends rfl) e.heap).bind ?_
      rintro ⟨heap', b⟩ _ ⟨ho, hb, rfl⟩
      obtain ⟨hi', hview⟩ := hi.heap.concat ho hb
      rw [show e.view.blocks.length = e.blocks.length from List.length_map _]
      refine (Agree.refl _).bind ?_
      rintro hash _ rfl
      have hblocks : e.view.blocks ++ [b.view heap']
          = (e.blocks ++ [b]).map (HostedBlock.view heap') := by
        rw [List.map_append, hview]
        rfl
      rw [hblocks]
      refine enter_agrees hi' (fun p hp => ?_) hash e.blocks.length
      rw [List.length_append]
      exact Nat.lt_add_right 1 (hi.previous p hp)

/-- The outer loop is at a chain of labels that never ends. -/
def HostedState.Stuck (e : HostedState) : Prop := e.control = .outer ∧ EndlessChain e.machine

/-- A round of the outer loop, which may add a block. -/
theorem hostedStep_outer (hi : HostedInv base e) (hcontrol : e.control = .outer) :
    Agree (fun f g => HostedState.view f = g ∧ HostedInv base f) (hostedStep host e)
        (hashedStep host e.view) ∨
      hostedStep host e = .error .overrun ∧ hashedStep host e.view = .error .diverge ∧
        e.Stuck := by
  have hview : e.view.control = .outer := hcontrol
  cases hhalt : e.machine.mips.halted with
  | true =>
      have hhalt' : e.view.machine.mips.halted = true := hhalt
      refine .inl ?_
      rw [hostedStep, hashedStep, hcontrol, hview]
      dsimp only
      rw [if_pos hhalt, if_pos hhalt']
      exact .ok ⟨rfl, hi.previous, hi.heap⟩
  | false =>
      have hrunning : ¬ e.machine.mips.halted = true := by simp [hhalt]
      have hrunning' : ¬ e.view.machine.mips.halted = true := hrunning
      by_cases hends : e.hash.hashFind (e.machine.reg MIPS_R_PC) = .ok none →
          decodeBlock e.machine.mips e.machine.memory ≠ .error .diverge
      · refine .inl ?_
        rw [hostedStep, hashedStep, hcontrol, hview]
        dsimp only
        rw [if_neg hrunning, if_neg hrunning']
        refine (Agree.refl _).values.bind ?_
        rintro found _ ⟨rfl, hfound⟩
        exact found_agrees hi found fun hnone => hends (hnone ▸ hfound)
      · obtain ⟨hfind, hnot⟩ := Classical.not_imp.mp hends
        have hdiverge := not_not.mp hnot
        have hfind' : e.view.hash.hashFind (e.view.machine.reg MIPS_R_PC) = .ok none := hfind
        have hdiverge' : decodeBlock e.view.machine.mips e.view.machine.memory
          = .error .diverge := hdiverge
        obtain ⟨hoverrun, hendless⟩ := decodeBlockInto_overrun hdiverge e.heap
        refine .inr ⟨?_, ?_, hcontrol, hendless⟩
        · rw [hostedStep, hcontrol]
          dsimp only
          rw [if_neg hrunning, hfind, ok_bind]
          dsimp only
          rw [hoverrun]
          rfl
        · rw [hashedStep, hview]
          dsimp only
          rw [if_neg hrunning', hfind', ok_bind]
          dsimp only
          rw [hdiverge']
          rfl

/-- Elsewhere pointers are only followed. -/
theorem hostedStep_inside (hi : HostedInv base e) (hcontrol : e.control ≠ .outer) :
    Agree (fun f g => f.view = g ∧ HostedInv base f) (hostedStep host e)
      (hashedStep host e.view) := by
  have hderef := derefHosted_agrees hi.heap
  unfold hostedStep hashedStep blockedStep
  cases hc : e.control with
  | outer => exact absurd hc hcontrol
  | inner current =>
      rw [show e.view.control = _ from hc]
      dsimp only
      rw [bind_assoc]
      refine (hderef current).bind ?_
      rintro b _ ⟨-, rfl⟩
      exact .ok ⟨rfl, hi.previous, hi.heap⟩
  | unrolled current ops case =>
      rw [show e.view.control = _ from hc]
      dsimp only
      rw [bind_assoc]
      refine (hderef current).bind ?_
      rintro b _ ⟨hb, rfl⟩
      rw [opHosted_eq (hi.heap.stored b (List.mem_of_getElem? hb)), bind_assoc]
      refine (Agree.refl _).bind ?_
      rintro op _ rfl
      cases op.op with
      | none => exact .error _
      | some i =>
          dsimp only
          rw [bind_assoc]
          refine (Agree.refl _).bind ?_
          rintro s _ rfl
          exact .ok ⟨rfl, hi.previous, hi.heap⟩
  | test current ops =>
      rw [show e.view.control = _ from hc]
      dsimp only
      rw [bind_assoc]
      refine (hderef current).bind ?_
      rintro b _ ⟨hb, rfl⟩
      rw [opHosted_eq (hi.heap.stored b (List.mem_of_getElem? hb)), bind_assoc]
      refine (Agree.refl _).bind ?_
      rintro op _ rfl
      exact .ok ⟨rfl, hi.previous, hi.heap⟩
  | leave current =>
      rw [show e.view.control = _ from hc]
      dsimp only
      rw [bind_assoc]
      refine (hderef current).bind ?_
      rintro b _ ⟨hb, rfl⟩
      refine .ok ⟨rfl, fun p hp => ?_, hi.heap⟩
      cases hp
      exact (List.getElem?_eq_some_iff.mp hb).1
  | returned =>
      rw [show e.view.control = _ from hc]
      exact .ok ⟨by simp [HostedState.view, hc], hi.previous, hi.heap⟩

/-- The step lemma: with pointers or without, and the invariant is kept, unless the engine is
stuck. -/
theorem hostedStep_agrees (host : Host) (hi : HostedInv base e) :
    Agree (fun f g => HostedState.view f = g ∧ HostedInv base f) (hostedStep host e)
        (hashedStep host e.view) ∨
      hostedStep host e = .error .overrun ∧ hashedStep host e.view = .error .diverge ∧
        e.Stuck := by
  by_cases hcontrol : e.control = .outer
  · exact hostedStep_outer hi hcontrol
  · exact .inl (hostedStep_inside hi hcontrol)

theorem hostedStep_inv (hi : HostedInv base e) {f : HostedState}
    (hstep : hostedStep host e = .ok f) : HostedInv base f := by
  rcases hostedStep_agrees host hi with hagree | ⟨herror, -⟩
  · obtain ⟨_, -, -, hi'⟩ := hagree.left hstep
    exact hi'
  · cases herror.symm.trans hstep

end Step
/-! ### The loop at the end -/

/-- The array of a block is freed and then the block, while both are there. -/
theorem HeapInv.free_head {b : HostedBlock} {blocks : List HostedBlock}
    (hi : HeapInv base heap (b :: blocks)) :
    freeBlock heap b.ops = .ok (heap.remove b.ops) ∧
      freeBlock (heap.remove b.ops) b.self = .ok ((heap.remove b.ops).remove b.self) ∧
      HeapInv base ((heap.remove b.ops).remove b.self) blocks := by
  have howns : BlockHeap.Owns base heap (b.ops :: b.self :: blocks.flatMap HostedBlock.pointers) :=
    hi.owns
  refine ⟨freeBlock_eq (howns.live _ (by simp)), freeBlock_eq (howns.remove.live _ (by simp)), ?_,
    howns.remove.remove⟩
  intro c hc
  have hkeep : ∀ p ∈ c.pointers, ((heap.remove b.ops).remove b.self).block p = heap.block p := by
    intro p hp
    have hmem : p ∈ blocks.flatMap HostedBlock.pointers := List.mem_flatMap.mpr ⟨c, hc, hp⟩
    have hnodup := howns.nodup
    rw [List.nodup_cons, List.nodup_cons] at hnodup
    rw [BlockHeap.block_remove_of_ne (ne_of_mem_of_not_mem hmem hnodup.2.1),
      BlockHeap.block_remove_of_ne (ne_of_mem_of_not_mem (List.mem_cons_of_mem _ hmem) hnodup.1)]
  obtain ⟨hself, ops, capacity, harray, hrest⟩ := hi.stored c (List.mem_cons_of_mem _ hc)
  refine ⟨(hkeep _ (by simp [HostedBlock.pointers])).trans hself, ops, capacity, ?_, hrest⟩
  exact (hkeep _ (by simp [HostedBlock.pointers])).trans harray

theorem HeapInv.block_eq (hi : HeapInv base heap []) : heap.block = base.block :=
  funext fun p => hi.owns.rest p List.not_mem_nil

/-- `run` frees the blocks at the places `items`, if nothing else is on the heap. -/
def Frees (base : EngineHeap) (blocks : List HostedBlock)
    (run : EngineHeap → Except Fault EngineHeap) (items : List Nat) : Prop :=
  ∀ (heap : EngineHeap) (bs : List HostedBlock),
    (items.map fun p => blocks[p]?) = bs.map some → HeapInv base heap bs →
      ∃ heap', run heap = .ok heap' ∧ heap'.block = base.block

theorem frees_nil (blocks : List HostedBlock) : Frees base blocks .ok [] := by
  intro heap bs hbs hi
  rw [List.map_eq_nil_iff.mp hbs.symm] at hi
  exact ⟨heap, rfl, hi.block_eq⟩

theorem frees_cons {blocks : List HostedBlock} {run : EngineHeap → Except Fault EngineHeap}
    {items : List Nat} (hrun : Frees base blocks run items) (p : Nat) :
    Frees base blocks (fun heap => do
      let b ← derefHosted heap blocks p
      let heap ← freeBlock heap b.ops
      let heap ← freeBlock heap b.self
      run heap) (p :: items) := by
  intro heap bs hbs hi
  cases bs with
  | nil => cases hbs
  | cons b bs =>
      rw [List.map_cons, List.map_cons, List.cons.injEq] at hbs
      obtain ⟨hb, hbs⟩ := hbs
      obtain ⟨harray, hself, hi'⟩ := hi.free_head
      have hderef : derefHosted heap blocks p = .ok b := by
        simp only [derefHosted, hb, (hi.stored b List.mem_cons_self).self]
      obtain ⟨heap', hrest, hbase⟩ := hrun _ bs hbs hi'
      refine ⟨heap', ?_, hbase⟩
      dsimp only
      rw [hderef, ok_bind, harray, ok_bind, hself]
      exact hrest

/-- The loop frees the blocks that the loop of `UtHash` lists, with their arrays. -/
theorem freeLoopHosted_frees (base : EngineHeap) (blocks : List HostedBlock) {fuel : Nat}
    {b t : Option Nat} {h h' : UtHash} {freed freed' : List Nat}
    (hrun : UtHash.freeLoop fuel b t h freed = .ok (h', freed')) :
    ∃ items, freed' = freed ++ items ∧
      Frees base blocks (freeLoopHosted blocks fuel b t h) items := by
  induction fuel generalizing b t h freed with
  | zero =>
      cases b with
      | none =>
          cases hrun
          exact ⟨[], (List.append_nil _).symm, frees_nil blocks⟩
      | some p => cases hrun
  | succ fuel ih =>
      cases b with
      | none =>
          cases hrun
          exact ⟨[], (List.append_nil _).symm, frees_nil blocks⟩
      | some p =>
          obtain ⟨h₁, hdelete, hrun⟩ := bind_eq_ok.mp hrun
          obtain ⟨t', hnext, hrun⟩ := bind_eq_ok.mp hrun
          obtain ⟨items, rfl, hitems⟩ := ih hrun
          refine ⟨p :: items, by simp, ?_⟩
          have hcons := frees_cons hitems p
          intro heap bs hbs hi
          obtain ⟨heap', hrest, hbase⟩ := hcons heap bs hbs hi
          refine ⟨heap', ?_, hbase⟩
          rw [← hrest, freeLoopHosted, hdelete, ok_bind]
          simp only [hnext, ok_bind]

theorem map_getElem?_range (blocks : List HostedBlock) :
    ((List.range blocks.length).map fun p => blocks[p]?) = blocks.map some := by
  refine List.ext_getElem? fun p => ?_
  rw [List.getElem?_map, List.getElem?_map]
  rcases Nat.lt_or_ge p blocks.length with hp | hp
  · simp [hp]
  · simp [hp]

/-- The heap is what it was before the engine was started, if the table represents the blocks. -/
theorem HostedInv.cleanup_eq {e : HostedState} (hi : HostedInv base e) (htable : TableInv e.view) :
    ∃ heap', e.cleanup = .ok heap' ∧ heap'.block = base.block := by
  have hfree : e.hash.freeBlocks = .ok (.empty, List.range e.blocks.length) := by
    rw [← List.length_map (f := HostedBlock.view e.heap)]
    exact UtHash.freeBlocks_spec htable.table
  obtain ⟨t, hnext, hrun⟩ := bind_eq_ok.mp hfree
  obtain ⟨items, hitems, hfrees⟩ := freeLoopHosted_frees base e.blocks hrun
  rw [List.nil_append] at hitems
  subst hitems
  obtain ⟨heap', hcleanup, hbase⟩ := hfrees e.heap e.blocks (map_getElem?_range e.blocks) hi.heap
  refine ⟨heap', ?_, hbase⟩
  rw [HostedState.cleanup, hnext]
  exact hcleanup

/-! ### Whole runs -/

section Runs

variable (host : Host) (s : Machine) (base : EngineHeap) (n : Nat)

theorem exec_hosted : ((interpreterHosted host).exec n (.start s base)).map HostedState.view
      = (interpreterHashed host).exec n (.start s) ∨
    (interpreterHosted host).exec n (.start s base) = .error .overrun ∧
      (interpreterHashed host).exec n (.start s) = .error .diverge ∧
      ∃ e, (interpreterHosted host).Reaches (.start s base) e ∧ e.Stuck :=
  exec_map_or_stuck HostedState.view (I := HostedInv base) (fun _ => rfl)
    (fun _ hi _ => (hostedStep_agrees _ hi).imp_left fun hagree => hagree.map_eq fun _ _ h => h.1)
    (fun _ _ hi _ hstep => hostedStep_inv hi hstep) n (hostedInv_start s base)

/-- The engine with its pointers and the one without have one outcome, after every number of
steps and on every heap it is started on: the same state, or the same fault. It reads no op that
was not stored, and follows no pointer to a block or an array that is gone. There is one
exception: where a chain of labels never ends, `decode_block` stores an op past its array. -/
theorem hostedBlocks_lockstep :
    ((interpreterHosted host).exec n (.start s base)).map HostedState.view
      = (interpreterHashed host).exec n (.start s) ∨
    (interpreterHosted host).exec n (.start s base) = .error .overrun ∧
      (interpreterHashed host).exec n (.start s) = .error .diverge ∧
      ∃ e, (interpreterHosted host).Reaches (.start s base) e ∧ e.control = .outer ∧
        EndlessChain e.machine := exec_hosted host s base n

/-- The heap after every number of steps. Every block has an array with its ops at the front,
which has room for 32, or for at most twice as many as there are, and what is not the engine's own
is as it was. As long as the table fits, the loop at the end of `interpreter_blocked` frees every
array and every block, none of them twice, and leaves the heap as it was before the engine was
started. -/
theorem hostedBlocks_freed (e : HostedState)
    (h : (interpreterHosted host).exec n (.start s base) = .ok e) :
    (∀ b ∈ e.blocks, ∃ ops capacity, e.heap.block b.ops = some (.ops (opArray ops capacity)) ∧
      b.size = BitVec.ofNat 32 ops.length ∧ ops.length ≤ capacity ∧
      capacity ≤ max 32 (2 * ops.length)) ∧
    (∀ p, (base.block p).isSome → e.heap.block p = base.block p) ∧
    (TableFits host s n → ∃ heap', e.cleanup = .ok heap' ∧ heap'.block = base.block) := by
  have hi : HostedInv base e := (reaches_of_exec h).invariant
    (fun _ _ hi _ hstep => hostedStep_inv hi hstep) (hostedInv_start s base)
  refine ⟨fun b hb => ?_, fun p hp => hi.heap.owns.rest p (hi.heap.owns.notMem hp), fun hfits => ?_⟩
  · obtain ⟨-, ops, capacity, harray, hlength, hroom, hsize⟩ := hi.heap.stored b hb
    exact ⟨ops, capacity, harray, hsize, hlength, hroom⟩
  · refine hi.cleanup_eq (tableInv_exec hfits ?_)
    rcases exec_hosted host s base n with hmap | ⟨herror, -⟩
    · rw [← hmap, h]
      rfl
    · cases herror.symm.trans h

end Runs

/-- A block of 36 ops, whose array has been enlarged once. -/
theorem hostedBlocks_freed_enlarged :
    ∃ e, (interpreterHosted failingHost).exec 2
        (.start (program 0x400000 (List.replicate 33 0 ++ [0x1000ffff, 0])) .empty) = .ok e ∧
      (e.blocks.map fun b => (b.size, b.ops, b.self)) = [(36, 1, 2)] ∧
      e.heap.block 0 = none ∧
      ∃ heap', e.cleanup = .ok heap' ∧ heap'.block = (BlockHeap.empty : EngineHeap).block := by
  obtain ⟨e, he, hp⟩ : ∃ e, (interpreterHosted failingHost).exec 2
      (.start (program 0x400000 (List.replicate 33 0 ++ [0x1000ffff, 0])) .empty) = .ok e ∧
      (decide ((e.blocks.map fun b => (b.size, b.ops, b.self)) = [(36, 1, 2)])
        && (e.heap.block 0).isNone) = true :=
    okWith_eq_true.mp (by decide +kernel)
  obtain ⟨hblocks, hnone⟩ := Bool.and_eq_true_iff.mp hp
  have hfits : TableFits failingHost
      (program 0x400000 (List.replicate 33 0 ++ [0x1000ffff, 0])) 2 := by
    have h : (interpreterHashed failingHost).execAll (fun e => decide e.hash.Fits) 2
        (.start (program 0x400000 (List.replicate 33 0 ++ [0x1000ffff, 0]))) = true := by
      decide +kernel
    exact fun k hk e he => of_decide_eq_true (of_execAll h hk he)
  obtain ⟨-, -, hfree⟩ := hostedBlocks_freed failingHost _ _ 2 e he
  exact ⟨e, he, of_decide_eq_true hblocks, Option.isNone_iff_eq_none.mp hnone, hfree hfits⟩

end MipsEngines
