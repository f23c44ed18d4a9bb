import MipsEngines.Model.HostMemory
import MipsEngines.Proofs.MemoryRefinement

/-!
# `MipsEngines.Proofs.HostMemory`: the pointers of the guest memory

`HostMemory.view` follows the pointers and gives a `Memory`. `Intact base m` is what makes that
sound: every pointer goes to a block of its kind, no block has two pointers to it, and the
blocks on the heap are those of `base` and those the pointers go to.

Every function of `memory.c` and `memory.h` keeps `Intact` and does to the view what its
counterpart in `Model.Memory` does, faults included (`Agrees`). `hostMemory_refines` is the
result for any sequence of calls, and says that `memory_delete` frees after them all that was
allocated, and nothing twice.
-/

set_option autoImplicit false

namespace MipsEngines

open Lib

namespace HostMemory

/-! ### Following the pointers -/

/-- An entry of the page table behind `p`. -/
def entry (m : HostMemory) (p : Nat) (e : Fin PE_COUNT) : Option Nat :=
  match m.heap.block p with
  | some (.table entries) => entries e
  | _ => none

def page? (m : HostMemory) (q : Nat) : Option Page :=
  match m.heap.block q with
  | some (.page bytes) => some bytes
  | _ => none

/-- The pages of the table behind `p`. -/
def table (m : HostMemory) (p : Nat) : PageTable := fun e => (m.entry p e).bind m.page?

/-- The memory without its pointers. -/
def view (m : HostMemory) : Memory where
  pageTables := fun t => (m.pageTables t).map m.table
  brkHeapStart := m.brkHeapStart
  brkHeapEnd := m.brkHeapEnd
  mmapHeapStart := m.mmapHeapStart
  mmapHeapEnd := m.mmapHeapEnd

/-- Where pointers are kept: in the `struct memory`, and in a page table. -/
inductive Place
  | table (t : Fin PT_COUNT)
  | page (t : Fin PT_COUNT) (e : Fin PE_COUNT)
  deriving DecidableEq

def pointer (m : HostMemory) : Place → Option Nat
  | .table t => m.pageTables t
  | .page t e => (m.pageTables t).bind fun p => m.entry p e

/-- The pointers are sound, and the heap is that of `base` but for them. -/
structure Intact (base : BlockHeap HostBlock) (m : HostMemory) : Prop where
  inj : ∀ x y p, m.pointer x = some p → m.pointer y = some p → x = y
  tables : ∀ t p, m.pageTables t = some p → ∃ entries, m.heap.block p = some (.table entries)
  pages : ∀ t e q, m.pointer (.page t e) = some q → ∃ bytes, m.heap.block q = some (.page bytes)
  owns : ∃ owned, BlockHeap.Owns base m.heap owned ∧ ∀ p, p ∈ owned ↔ ∃ x, m.pointer x = some p

/-- A call with pointers, and the same call without: both fault alike, or the first one leaves
the pointers sound and the second one their view. -/
abbrev Agrees (base : BlockHeap HostBlock) : Except Fault HostMemory → Except Fault Memory → Prop :=
  Agree fun m memory => Intact base m ∧ m.view = memory

section Calls

variable {base : BlockHeap HostBlock} {m m' : HostMemory} {p q : Nat}

theorem entry_eq {entries : Fin PE_COUNT → Option Nat}
    (h : m.heap.block p = some (.table entries)) : m.entry p = entries := by
  funext e
  unfold entry
  rw [h]

theorem page?_eq {bytes : Page} (h : m.heap.block q = some (.page bytes)) :
    m.page? q = some bytes := by
  unfold page?
  rw [h]

theorem tableAt_eq {entries : Fin PE_COUNT → Option Nat}
    (h : m.heap.block p = some (.table entries)) : m.tableAt p = .ok entries := by
  unfold tableAt
  rw [h]

theorem pageAt_eq {bytes : Page} (h : m.heap.block q = some (.page bytes)) :
    m.pageAt q = .ok bytes := by
  unfold pageAt
  rw [h]

theorem entry_congr {e : Fin PE_COUNT} (h : m'.heap.block p = m.heap.block p) :
    m'.entry p e = m.entry p e := by
  unfold entry
  rw [h]

theorem page?_congr (h : m'.heap.block q = m.heap.block q) : m'.page? q = m.page? q := by
  unfold page?
  rw [h]

/-- What is behind a pointer is there. -/
theorem Intact.live (hi : Intact base m) {x : Place} (hp : m.pointer x = some p) :
    (m.heap.block p).isSome := by
  obtain ⟨owned, ho, hmem⟩ := hi.owns
  exact ho.live p ((hmem p).mpr ⟨x, hp⟩)

theorem Intact.ne_next (hi : Intact base m) {x : Place} (hp : m.pointer x = some p) :
    p ≠ m.heap.next := by
  rintro rfl
  have hlive := hi.live hp
  rw [m.heap.fresh _ (Nat.le_refl _)] at hlive
  cases hlive

theorem intact_empty (base : BlockHeap HostBlock) : Intact base (empty base) where
  inj := fun x y p hx => by cases x <;> cases hx
  tables := fun t p h => by cases h
  pages := fun t e q h => by cases h
  owns := by
    refine ⟨[], .nil base, fun p => ⟨fun h => (List.not_mem_nil h).elim, ?_⟩⟩
    rintro ⟨x, hx⟩
    cases x <;> cases hx

/-- The view, place by place. -/
theorem pageTables_view (m : HostMemory) (t : Fin PT_COUNT) :
    m.view.pageTables t
      = (m.pageTables t).map fun _ e => (m.pointer (.page t e)).bind m.page? := by
  unfold view pointer
  cases ht : m.pageTables t with
  | none => simp [ht]
  | some p => simp only [ht, Option.map_some, Option.bind_some]; rfl

theorem pageTables_view_some {t : Fin PT_COUNT} (ht : m.pageTables t = some p) :
    m.view.pageTables t = some (m.table p) := by
  simp [view, ht]

/-! ### Reads -/

/-- `memory_find_page` finds the page of the view. -/
theorem findPage_cases (hi : Intact base m) (address : U32) :
    (m.findPage address = .error .unmapped ∧ memoryFindPage m.view address = .error .unmapped) ∨
    ∃ q page, m.findPage address = .ok (q, pageOffset address) ∧
      m.heap.block q = some (.page page) ∧
      m.pointer (.page (ptIdx address) (peIdx address)) = some q ∧
      memoryFindPage m.view address = .ok page := by
  unfold findPage memoryFindPage view
  cases ht : m.pageTables (ptIdx address) with
  | none => exact .inl ⟨rfl, by simp [ht]⟩
  | some p =>
      obtain ⟨entries, hp⟩ := hi.tables _ p ht
      simp only [ht, Option.map_some, table, entry_eq hp, tableAt_eq hp, ok_bind, pointer,
        Option.bind_some]
      cases he : entries (peIdx address) with
      | none => exact .inl ⟨rfl, rfl⟩
      | some q =>
          obtain ⟨page, hq⟩ := hi.pages (ptIdx address) (peIdx address) q (by
            simp [pointer, ht, entry_eq hp, he])
          exact .inr ⟨q, page, rfl, hq, rfl, by rw [Option.bind_some, page?_eq hq]⟩

theorem readU8_eq (hi : Intact base m) (address : U32) :
    m.readU8 address = memoryReadU8 m.view address := by
  unfold readU8 memoryReadU8
  rcases findPage_cases hi address with ⟨h, hview⟩ | ⟨q, page, h, hq, -, hview⟩
  · rw [h, hview]
    rfl
  · rw [h, hview]
    simp only [ok_bind, pageAt_eq hq]

theorem readU16_eq (hi : Intact base m) (address : U32) :
    m.readU16 address = memoryReadU16 m.view address := by
  unfold readU16 memoryReadU16
  rcases findPage_cases hi address with ⟨h, hview⟩ | ⟨q, page, h, hq, -, hview⟩
  · rw [h, hview]
    rfl
  · rw [h, hview]
    simp only [ok_bind, pageAt_eq hq]

theorem readU32_eq (hi : Intact base m) (address : U32) :
    m.readU32 address = memoryReadU32 m.view address := by
  unfold readU32 memoryReadU32
  rcases findPage_cases hi address with ⟨h, hview⟩ | ⟨q, page, h, hq, -, hview⟩
  · rw [h, hview]
    rfl
  · rw [h, hview]
    simp only [ok_bind, pageAt_eq hq]

theorem copyReadLoop_eq (hi : Intact base m) (fuel : Nat) (address size : U32) :
    copyReadLoop fuel m address size = MipsEngines.copyReadLoop fuel m.view address size := by
  induction fuel generalizing address size with
  | zero => rfl
  | succ fuel ih =>
      unfold copyReadLoop MipsEngines.copyReadLoop
      split_ifs with hsize
      · rfl
      · rcases findPage_cases hi address with ⟨h, hview⟩ | ⟨q, page, h, hq, -, hview⟩
        · rw [h, hview]
          rfl
        · rw [h, hview]
          simp only [ok_bind, pageAt_eq hq, ih]
          rfl

/-! ### Stores -/

/-- A page is replaced, which no pointer notices. -/
theorem pointer_storePage {old : Page} (hq : m.heap.block q = some (.page old)) (bytes : Page) :
    (m.storeBlock q (.page bytes)).pointer = m.pointer := by
  have hentry : ∀ p e, (m.storeBlock q (.page bytes)).entry p e = m.entry p e := by
    intro p e
    by_cases hpq : p = q
    · have hstored : (m.storeBlock q (.page bytes)).heap.block p = some (.page bytes) := by
        rw [hpq]
        exact BlockHeap.block_store_self (by simp [hq])
      unfold entry
      rw [hstored, hpq, hq]
    · exact entry_congr (BlockHeap.block_store_of_ne hpq)
  funext x
  cases x with
  | table t => rfl
  | page t e =>
      show (m.pageTables t).bind _ = (m.pageTables t).bind _
      simp only [hentry]

theorem Intact.storePage (hi : Intact base m) {t : Fin PT_COUNT} {e : Fin PE_COUNT}
    {old : Page} (hx : m.pointer (.page t e) = some q) (hq : m.heap.block q = some (.page old))
    (bytes : Page) : Intact base (m.storeBlock q (.page bytes)) := by
  have hpointer := pointer_storePage hq bytes
  obtain ⟨owned, ho, hmem⟩ := hi.owns
  refine ⟨by rw [hpointer]; exact hi.inj, fun t' p hp => ?_, fun t' e' r hr => ?_, owned, ?_, ?_⟩
  · obtain ⟨entries, htable⟩ := hi.tables t' p hp
    have hpq : p ≠ q := by
      rintro rfl
      rw [hq] at htable
      cases htable
    exact ⟨entries, (BlockHeap.block_store_of_ne hpq).trans htable⟩
  · rw [hpointer] at hr
    by_cases hrq : r = q
    · exact ⟨bytes, by rw [hrq]; exact BlockHeap.block_store_self (by simp [hq])⟩
    · obtain ⟨b, hb⟩ := hi.pages t' e' r hr
      exact ⟨b, (BlockHeap.block_store_of_ne hrq).trans hb⟩
  · exact ho.store ((hmem q).mpr ⟨_, hx⟩) _
  · rw [hpointer]
    exact hmem

/-- The replaced page is that of one address, since there is one pointer to it. -/
theorem view_storePage (hi : Intact base m) {address : U32} {old : Page}
    (hx : m.pointer (.page (ptIdx address) (peIdx address)) = some q)
    (hq : m.heap.block q = some (.page old)) (bytes : Page) :
    (m.storeBlock q (.page bytes)).view = m.view.setPage address bytes := by
  have hpage : ∀ t e, (m.pointer (.page t e)).bind (m.storeBlock q (.page bytes)).page?
      = if t = ptIdx address ∧ e = peIdx address then some bytes
        else (m.pointer (.page t e)).bind m.page? := by
    intro t e
    split_ifs with hplace
    · rw [hplace.1, hplace.2, hx]
      exact page?_eq (BlockHeap.block_store_self (by simp [hq]))
    · cases hr : m.pointer (.page t e) with
      | none => rfl
      | some r =>
          refine page?_congr (BlockHeap.block_store_of_ne ?_)
          rintro rfl
          cases hi.inj _ _ r hr hx
          exact hplace ⟨rfl, rfl⟩
  show (⟨_, _, _, _, _⟩ : Memory) = ⟨_, _, _, _, _⟩
  congr 1
  funext t
  refine (pageTables_view _ t).trans ?_
  rw [pointer_storePage hq bytes, pageTables_view]
  simp only [hpage]
  show (m.pageTables t).map _ = _
  cases m.pageTables t with
  | none => simp
  | some p =>
      by_cases ht : t = ptIdx address
      · simp [ht]
      · simp [ht]

theorem store_agrees (hi : Intact base m) (address : U32) (amount : Nat) (bytes : Nat → U8) :
    Agrees base (m.store address amount bytes) (memoryStore m.view address amount bytes) := by
  unfold store memoryStore
  rcases findPage_cases hi address with ⟨h, hview⟩ | ⟨q, page, h, hq, hx, hview⟩
  · rw [h, hview]
    exact .error _
  · rw [h, hview]
    simp only [ok_bind, pageAt_eq hq]
    split_ifs
    · exact .ok ⟨hi.storePage hx hq _, view_storePage hi hx hq _⟩
    · exact .error _

theorem copyWriteLoop_agrees (hi : Intact base m) (fuel : Nat) (address size : U32)
    (buffer : Nat → U8) : Agrees base (copyWriteLoop fuel m address size buffer)
      (MipsEngines.copyWriteLoop fuel m.view address size buffer) := by
  induction fuel generalizing m address size buffer with
  | zero => exact .ok ⟨hi, rfl⟩
  | succ fuel ih =>
      unfold copyWriteLoop MipsEngines.copyWriteLoop
      split_ifs
      · exact .ok ⟨hi, rfl⟩
      · refine (store_agrees hi address _ buffer).bind ?_
        rintro m' _ ⟨hi', rfl⟩
        exact ih hi' _ _ _

/-! ### Allocation -/

/-- The table of `t` is replaced. -/
def setTable (memory : Memory) (t : Fin PT_COUNT) (table : PageTable) : Memory :=
  { memory with pageTables := fun i => if i = t then some table else memory.pageTables i }

theorem setTable_setTable (memory : Memory) (t : Fin PT_COUNT) (table table' : PageTable) :
    setTable (setTable memory t table) t table' = setTable memory t table' := by
  simp only [setTable]
  congr 1
  funext i
  split_ifs <;> rfl

theorem setTable_self {memory : Memory} {t : Fin PT_COUNT} {table : PageTable}
    (h : memory.pageTables t = some table) : setTable memory t table = memory := by
  unfold setTable
  congr 1
  funext i
  split_ifs with hi
  · rw [hi, h]
  · rfl

/-- The blocks of `m` are still there, and the pointers of `m'` are those of `m` and a new one. -/
theorem Intact.grow (hi : Intact base m) {x : Place} (hx : m.pointer x = none)
    (hpointer : ∀ y, m'.pointer y = if y = x then some m.heap.next else m.pointer y)
    (howns : ∀ owned, BlockHeap.Owns base m.heap owned →
      (∀ p, p ∈ owned ↔ ∃ x, m.pointer x = some p) →
      BlockHeap.Owns base m'.heap (m.heap.next :: owned))
    (htables : ∀ t p, m'.pageTables t = some p →
      ∃ entries, m'.heap.block p = some (.table entries))
    (hpages : ∀ t e q, m'.pointer (.page t e) = some q →
      ∃ bytes, m'.heap.block q = some (.page bytes)) : Intact base m' := by
  obtain ⟨owned, ho, hmem⟩ := hi.owns
  refine ⟨fun y z p hy hz => ?_, htables, hpages, m.heap.next :: owned, howns owned ho hmem,
    fun p => ?_⟩
  · rw [hpointer] at hy hz
    split_ifs at hy hz with hyx hzx hzx
    · rw [hyx, hzx]
    · cases hy
      exact absurd rfl (hi.ne_next hz)
    · cases hz
      exact absurd rfl (hi.ne_next hy)
    · exact hi.inj y z p hy hz
  · rw [List.mem_cons, hmem]
    refine ⟨?_, ?_⟩
    · rintro (rfl | ⟨y, hy⟩)
      · exact ⟨x, by rw [hpointer, if_pos rfl]⟩
      · refine ⟨y, ?_⟩
        rw [hpointer, if_neg]
        · exact hy
        · rintro rfl
          rw [hx] at hy
          cases hy
    · rintro ⟨y, hy⟩
      rw [hpointer] at hy
      split_ifs at hy with hyx
      · cases hy
        exact .inl rfl
      · exact .inr ⟨y, hy⟩

/-- Two page tables are different blocks. -/
theorem Intact.tables_inj (hi : Intact base m) {t t' : Fin PT_COUNT} (h : m.pageTables t = some p)
    (h' : m.pageTables t' = some p) : t = t' := by
  have hsame := hi.inj (.table t) (.table t') p h h'
  cases hsame
  rfl

theorem block_alloc {b : HostBlock} (hi : Intact base m) {x : Place} (hp : m.pointer x = some p) :
    (m.heap.alloc b).block p = m.heap.block p :=
  BlockHeap.block_alloc_of_isSome (hi.live hp)

/-! #### A new table -/

/-- The memory after an empty table is allocated for `t`. -/
def insertTable (m : HostMemory) (t : Fin PT_COUNT) : HostMemory :=
  { m with
    heap := m.heap.alloc (.table fun _ => none)
    pageTables := fun i => if i = t then some m.heap.next else m.pageTables i }

theorem block_insertTable_self (m : HostMemory) (t : Fin PT_COUNT) :
    (m.insertTable t).heap.block m.heap.next = some (.table fun _ => none) := if_pos rfl

theorem pointer_insertTable (hi : Intact base m) {t : Fin PT_COUNT} (ht : m.pageTables t = none)
    (y : Place) : (m.insertTable t).pointer y
      = if y = .table t then some m.heap.next else m.pointer y := by
  cases y with
  | table i => simp [pointer, insertTable]
  | page i e =>
      rw [if_neg (by simp)]
      show (if i = t then some m.heap.next else m.pageTables i).bind _ = (m.pageTables i).bind _
      split_ifs with hit
      · simp [hit, ht, entry_eq (block_insertTable_self m t)]
      · cases hp : m.pageTables i with
        | none => rfl
        | some p => exact entry_congr (block_alloc hi (x := .table i) hp)

theorem intact_insertTable (hi : Intact base m) {t : Fin PT_COUNT} (ht : m.pageTables t = none) :
    Intact base (m.insertTable t) := by
  have hpointer := pointer_insertTable hi ht
  refine hi.grow (x := .table t) ht hpointer (fun owned ho _ => ho.alloc _) ?_ ?_
  · intro i p hp
    have hp' := hpointer (.table i)
    rw [show (m.insertTable t).pointer (.table i) = some p from hp] at hp'
    split_ifs at hp' with hit
    · cases hp'
      exact ⟨_, block_insertTable_self m t⟩
    · obtain ⟨entries, htable⟩ := hi.tables i p hp'.symm
      exact ⟨entries, (block_alloc hi hp'.symm).trans htable⟩
  · intro i e q hq
    rw [hpointer, if_neg (by simp)] at hq
    obtain ⟨bytes, hpage⟩ := hi.pages i e q hq
    exact ⟨bytes, (block_alloc hi hq).trans hpage⟩

theorem view_insertTable (hi : Intact base m) {t : Fin PT_COUNT} (ht : m.pageTables t = none) :
    (m.insertTable t).view = setTable m.view t fun _ => none := by
  show (⟨_, _, _, _, _⟩ : Memory) = ⟨_, _, _, _, _⟩
  congr 1
  funext i
  refine (pageTables_view _ i).trans ?_
  have hpage : ∀ e, ((m.insertTable t).pointer (.page i e)).bind (m.insertTable t).page?
      = (m.pointer (.page i e)).bind m.page? := by
    intro e
    rw [pointer_insertTable hi ht, if_neg (by simp)]
    cases hq : m.pointer (.page i e) with
    | none => rfl
    | some q => exact page?_congr (block_alloc hi hq)
  simp only [hpage]
  show (if i = t then some m.heap.next else m.pageTables i).map _ = _
  split_ifs with hit
  · simp [hit, pointer, ht]
  · exact (pageTables_view m i).symm

/-- A new table is empty, and a table that is there stays. -/
theorem findTable_spec (hi : Intact base m) (t : Nat) :
    ∃ p m', m.findTable t = (p, m') ∧ Intact base m' ∧ m'.pageTables (place t) = some p ∧
      m'.view = setTable m.view (place t) ((m.view.pageTables (place t)).getD fun _ => none) := by
  unfold findTable
  cases ht : m.pageTables (place t) with
  | some p =>
      refine ⟨p, m, rfl, hi, ht, ?_⟩
      rw [pageTables_view_some ht, Option.getD_some, setTable_self (pageTables_view_some ht)]
  | none =>
      refine ⟨m.heap.next, m.insertTable (place t), rfl, intact_insertTable hi ht, if_pos rfl, ?_⟩
      rw [view_insertTable hi ht, pageTables_view, ht]
      rfl

/-! #### A new page -/

/-- The memory after a page is allocated for `e`, in the table behind `p`. -/
def insertPage (m : HostMemory) (p : Nat) (entries : Fin PE_COUNT → Option Nat)
    (e : Fin PE_COUNT) : HostMemory :=
  ({ m with heap := m.heap.alloc (.page fun _ => 0) } : HostMemory).storeBlock p
    (.table fun i => if i = e then some m.heap.next else entries i)

section InsertPage

variable {t : Fin PT_COUNT} {e : Fin PE_COUNT} {entries : Fin PE_COUNT → Option Nat}

theorem block_insertPage_table (hi : Intact base m) (ht : m.pageTables t = some p) :
    (m.insertPage p entries e).heap.block p
      = some (.table fun i => if i = e then some m.heap.next else entries i) := by
  refine BlockHeap.block_store_self ?_
  rw [block_alloc hi (x := .table t) ht]
  exact hi.live (x := .table t) ht

theorem block_insertPage_page (hi : Intact base m) (ht : m.pageTables t = some p) :
    (m.insertPage p entries e).heap.block m.heap.next = some (.page fun _ => 0) :=
  (BlockHeap.block_store_of_ne (hi.ne_next (x := .table t) ht).symm).trans (if_pos rfl)

theorem block_insertPage_old (hi : Intact base m) {x : Place} (hx : m.pointer x = some q)
    (hq : q ≠ p) : (m.insertPage p entries e).heap.block q = m.heap.block q :=
  (BlockHeap.block_store_of_ne hq).trans (block_alloc hi hx)

/-- A pointer to a page is none to a table. -/
theorem Intact.page_ne_table (hi : Intact base m) (ht : m.pageTables t = some p)
    {i : Fin PT_COUNT} {j : Fin PE_COUNT} (hq : m.pointer (.page i j) = some q) : q ≠ p := by
  rintro rfl
  cases hi.inj (.page i j) (.table t) q hq ht

theorem pointer_insertPage (hi : Intact base m) (ht : m.pageTables t = some p)
    (htable : m.heap.block p = some (.table entries)) (y : Place) :
    (m.insertPage p entries e).pointer y
      = if y = .page t e then some m.heap.next else m.pointer y := by
  cases y with
  | table i => rfl
  | page i j =>
      show (m.pageTables i).bind _ = if _ then _ else (m.pageTables i).bind _
      by_cases hit : i = t
      · rw [hit, ht, Option.bind_some, Option.bind_some, entry_eq (block_insertPage_table hi ht),
          entry_eq htable]
        simp only [Place.page.injEq, true_and]
      · rw [if_neg (by simp [hit])]
        cases hp : m.pageTables i with
        | none => rfl
        | some p' =>
            refine entry_congr (block_insertPage_old hi (x := .table i) hp ?_)
            rintro rfl
            exact hit (hi.tables_inj hp ht)

theorem intact_insertPage (hi : Intact base m) (ht : m.pageTables t = some p)
    (htable : m.heap.block p = some (.table entries)) (he : entries e = none) :
    Intact base (m.insertPage p entries e) := by
  have hpointer := pointer_insertPage (e := e) hi ht htable
  have hnone : m.pointer (.page t e) = none := by simp [pointer, ht, entry_eq htable, he]
  refine hi.grow hnone hpointer ?_ ?_ ?_
  · intro owned ho hmem
    exact (ho.alloc _).store (List.mem_cons_of_mem _ ((hmem p).mpr ⟨.table t, ht⟩)) _
  · intro i p' hp
    by_cases hpp : p' = p
    · rw [hpp]
      exact ⟨_, block_insertPage_table hi ht⟩
    · obtain ⟨entries', htable'⟩ := hi.tables i p' hp
      exact ⟨entries', (block_insertPage_old hi (x := .table i) hp hpp).trans htable'⟩
  · intro i j q hq
    rw [hpointer] at hq
    split_ifs at hq with hplace
    · cases hq
      exact ⟨_, block_insertPage_page hi ht⟩
    · obtain ⟨bytes, hpage⟩ := hi.pages i j q hq
      exact ⟨bytes, (block_insertPage_old hi hq (hi.page_ne_table ht hq)).trans hpage⟩

theorem view_insertPage (hi : Intact base m) (ht : m.pageTables t = some p)
    (htable : m.heap.block p = some (.table entries)) :
    (m.insertPage p entries e).view
      = setTable m.view t fun j => if j = e then some fun _ => 0 else m.table p j := by
  have hpointer := pointer_insertPage (e := e) hi ht htable
  have hpage : ∀ i j, ((m.insertPage p entries e).pointer (.page i j)).bind
      (m.insertPage p entries e).page? = if i = t ∧ j = e then some (fun _ => 0)
        else (m.pointer (.page i j)).bind m.page? := by
    intro i j
    rw [hpointer]
    by_cases hplace : i = t ∧ j = e
    · rw [if_pos (by rw [hplace.1, hplace.2]), if_pos hplace]
      exact page?_eq (block_insertPage_page hi ht)
    · rw [if_neg (by simpa using hplace), if_neg hplace]
      cases hq : m.pointer (.page i j) with
      | none => rfl
      | some q => exact page?_congr (block_insertPage_old hi hq (hi.page_ne_table ht hq))
  show (⟨_, _, _, _, _⟩ : Memory) = ⟨_, _, _, _, _⟩
  congr 1
  funext i
  refine (pageTables_view _ i).trans ?_
  simp only [hpage]
  show (m.pageTables i).map _ = _
  split_ifs with hit
  · simp [hit, ht, pointer, table]
  · simp [hit, pageTables_view]

end InsertPage

theorem allocateEntry_eq (table : PageTable) (e : Nat) : MipsEngines.allocateEntry table e
    = fun i => if i = place e then some ((table i).getD fun _ => 0) else table i := by
  funext i
  simp only [MipsEngines.allocateEntry, Fin.ext_iff, place]

/-- A page is allocated where there is none, and a page that is there stays. -/
theorem allocateEntry_spec (hi : Intact base m) {t : Fin PT_COUNT} (ht : m.pageTables t = some p)
    (e : Nat) : ∃ m', m.allocateEntry p e = .ok m' ∧ Intact base m' ∧ m'.pageTables t = some p ∧
      m'.view = setTable m.view t (MipsEngines.allocateEntry (m.table p) e) := by
  obtain ⟨entries, htable⟩ := hi.tables t p ht
  rw [allocateEntry, tableAt_eq htable, ok_bind, allocateEntry_eq]
  cases he : entries (place e) with
  | some q =>
      refine ⟨m, rfl, hi, ht, ?_⟩
      obtain ⟨bytes, hpage⟩ := hi.pages t (place e) q (by simp [pointer, ht, entry_eq htable, he])
      have hentry : m.table p (place e) = some bytes := by
        simp [table, entry_eq htable, he, page?_eq hpage]
      have hsame : (fun i => if i = place e then some ((m.table p i).getD fun _ => 0)
          else m.table p i) = m.table p := by
        funext i
        split_ifs with hie
        · rw [hie, hentry, Option.getD_some]
        · rfl
      rw [hsame, setTable_self (pageTables_view_some ht)]
  | none =>
      have htable₁ : (m.heap.alloc (.page fun _ => 0)).block p = some (.table entries) :=
        (block_alloc hi (x := .table t) ht).trans htable
      refine ⟨m.insertPage p entries (place e), ?_, intact_insertPage hi ht htable he, ht, ?_⟩
      · show (tableAt { m with heap := m.heap.alloc (.page fun _ => 0) } p >>= _) = _
        rw [tableAt_eq htable₁]
        rfl
      · have hentry : m.table p (place e) = none := by simp [table, entry_eq htable, he]
        rw [view_insertPage hi ht htable]
        congr 1
        funext i
        split_ifs with hie
        · rw [hie, hentry, Option.getD_none]
        · rfl

theorem allocateEntries_spec (hi : Intact base m) {t : Fin PT_COUNT} (ht : m.pageTables t = some p)
    (es : List Nat) : ∃ m', es.foldlM (allocateEntry p) m = .ok m' ∧ Intact base m' ∧
      m'.view = setTable m.view t (es.foldl MipsEngines.allocateEntry (m.table p)) := by
  induction es generalizing m with
  | nil => exact ⟨m, rfl, hi, (setTable_self (pageTables_view_some ht)).symm⟩
  | cons e es ih =>
      obtain ⟨m₁, hrun₁, hi₁, ht₁, hview₁⟩ := allocateEntry_spec hi ht e
      obtain ⟨m', hrun, hi', hview⟩ := ih hi₁ ht₁
      have htable : m₁.table p = MipsEngines.allocateEntry (m.table p) e := by
        have hsome := pageTables_view_some ht₁
        rw [hview₁] at hsome
        simpa [setTable] using hsome.symm
      refine ⟨m', by rw [List.foldlM_cons, hrun₁]; exact hrun, hi', ?_⟩
      rw [hview, hview₁, htable, setTable_setTable]
      rfl

/-- The entries of table `t` that `memory_allocate` goes through. -/
def tableEntries (address last : U32) (head tail t : Nat) : List Nat :=
  let entryStart := if t = head then (peIdx address).val else 0
  let entryEnd := if t = tail then (peIdx last).val else PE_MASK.toNat
  List.range' entryStart (entryEnd + 1 - entryStart)

theorem allocateTable_eq (address last : U32) (head tail t : Nat) (memory : Memory) :
    MipsEngines.allocateTable address last head tail memory t = setTable memory (place t)
      ((tableEntries address last head tail t).foldl MipsEngines.allocateEntry
        ((memory.pageTables (place t)).getD fun _ => none)) := by
  show (⟨_, _, _, _, _⟩ : Memory) = ⟨_, _, _, _, _⟩
  congr 1
  funext i
  have hplace : i.val = t % PT_COUNT ↔ i = place t :=
    (Fin.ext_iff (a := i) (b := place t)).symm
  by_cases hit : i = place t
  · rw [if_pos hit, if_pos (hplace.mpr hit), hit]
    rfl
  · rw [if_neg hit, if_neg (mt hplace.mp hit)]

theorem allocateTable_agrees (hi : Intact base m) (address last : U32) (head tail t : Nat) :
    Agrees base (allocateTable address last head tail m t)
      (.ok (MipsEngines.allocateTable address last head tail m.view t)) := by
  obtain ⟨p, m₁, hfind, hi₁, ht₁, hview₁⟩ := findTable_spec hi t
  obtain ⟨m', hrun, hi', hview⟩ := allocateEntries_spec hi₁ ht₁ (tableEntries address last head tail t)
  have htable : m₁.table p = (m.view.pageTables (place t)).getD fun _ => none := by
    have hsome := pageTables_view_some ht₁
    rw [hview₁] at hsome
    simpa [setTable] using hsome.symm
  have hpointers : allocateTable address last head tail m t = .ok m' := by
    unfold allocateTable
    rw [hfind]
    exact hrun
  rw [hpointers, allocateTable_eq, ← htable, ← setTable_setTable m.view (place t) (m₁.table p), htable,
    ← hview₁, ← htable, ← hview]
  exact .ok ⟨hi', rfl⟩

/-- `memory_allocate`. -/
theorem allocate_agrees (hi : Intact base m) (address size : U32) :
    Agrees base (m.allocate address size) (.ok (memoryAllocate m.view address size)) := by
  let last := address + size - 1
  let head := (ptIdx address).val
  let tail := (ptIdx last).val
  have hfold : Agrees base ((List.range' head (tail + 1 - head)).foldlM
      (allocateTable address last head tail) m) ((List.range' head (tail + 1 - head)).foldlM
      (fun memory t => pure (MipsEngines.allocateTable address last head tail memory t)) m.view) := by
    refine .foldlM ⟨hi, rfl⟩ ?_
    rintro m _ ⟨hi, rfl⟩ t -
    exact allocateTable_agrees hi address last head tail t
  rwa [List.foldlM_pure] at hfold

/-! ### `memory_delete` -/

/-- The pages of a table, in the order of its entries. -/
def tablePages (m : HostMemory) (p : Nat) : List Nat := (List.finRange PE_COUNT).filterMap (m.entry p)

/-- What is freed for a table: its pages, then the table. -/
def tableBlocks (m : HostMemory) (t : Fin PT_COUNT) : List Nat :=
  match m.pageTables t with
  | none => []
  | some p => m.tablePages p ++ [p]

theorem mem_tableBlocks {t : Fin PT_COUNT} : q ∈ m.tableBlocks t ↔
    m.pointer (.table t) = some q ∨ ∃ e, m.pointer (.page t e) = some q := by
  unfold tableBlocks tablePages pointer
  cases ht : m.pageTables t with
  | none => simp [ht]
  | some p => simp [ht, or_comm, eq_comm (a := q)]

theorem nodup_tableBlocks (hi : Intact base m) (t : Fin PT_COUNT) : (m.tableBlocks t).Nodup := by
  unfold tableBlocks
  cases ht : m.pageTables t with
  | none => exact List.nodup_nil
  | some p =>
      have hentry : ∀ e, m.pointer (.page t e) = m.entry p e := fun e => by simp [pointer, ht]
      refine List.nodup_append.mpr ⟨?_, List.nodup_singleton p, ?_⟩
      · refine (List.nodup_finRange _).filterMap fun e e' q he he' => ?_
        have hsame := hi.inj (.page t e) (.page t e') q ((hentry e).trans he) ((hentry e').trans he')
        cases hsame
        rfl
      · intro q hq r hr
        obtain ⟨e, -, he⟩ := List.mem_filterMap.mp hq
        rw [List.mem_singleton.mp hr]
        exact hi.page_ne_table ht ((hentry e).trans he)

/-- All blocks of the memory, in the order `memory_delete` frees them. -/
def blocks (m : HostMemory) : List Nat := (List.finRange PT_COUNT).flatMap m.tableBlocks

theorem mem_blocks : q ∈ m.blocks ↔ ∃ x, m.pointer x = some q := by
  unfold blocks
  simp only [List.mem_flatMap, List.mem_finRange, true_and, mem_tableBlocks]
  refine ⟨?_, ?_⟩
  · rintro ⟨t, h | ⟨e, h⟩⟩
    · exact ⟨_, h⟩
    · exact ⟨_, h⟩
  · rintro ⟨x, hx⟩
    cases x with
    | table t => exact ⟨t, .inl hx⟩
    | page t e => exact ⟨t, .inr ⟨e, hx⟩⟩

theorem nodup_blocks (hi : Intact base m) : m.blocks.Nodup := by
  refine List.nodup_flatMap.mpr ⟨fun t _ => nodup_tableBlocks hi t, ?_⟩
  refine (List.nodup_finRange _).imp fun {t t'} hne => ?_
  intro q hq hq'
  rw [mem_tableBlocks] at hq hq'
  rcases hq with hq | ⟨e, hq⟩ <;> rcases hq' with hq' | ⟨e', hq'⟩
  all_goals
    have hsame := hi.inj _ _ q hq hq'
    cases hsame
  · exact hne rfl
  · exact hne rfl

/-- The pages of a table are freed, one by one, while the table is there. -/
theorem deleteEntries_eq {entries : Fin PE_COUNT → Option Nat}
    (htable : m.heap.block p = some (.table entries)) {es : List (Fin PE_COUNT)}
    (hnodup : (es.filterMap entries).Nodup) (hp : p ∉ es.filterMap entries)
    (hlive : ∀ q ∈ es.filterMap entries, (m.heap.block q).isSome) :
    ∃ heap, m.heap.freeAll (es.filterMap entries) = some heap ∧
      es.foldlM (deleteEntry p) m = .ok { m with heap := heap } := by
  induction es generalizing m with
  | nil => exact ⟨m.heap, rfl, rfl⟩
  | cons e es ih =>
      rw [List.foldlM_cons]
      have hfirst : m.deleteEntry p e = match entries e with
          | none => .ok m
          | some q => m.free q := by
        rw [deleteEntry, tableAt_eq htable]
        rfl
      cases he : entries e with
      | none =>
          rw [List.filterMap_cons_none he] at *
          obtain ⟨heap, hheap, hrun⟩ := ih htable hnodup hp hlive
          exact ⟨heap, hheap, by rw [hfirst, he]; exact hrun⟩
      | some q =>
          rw [List.filterMap_cons_some he] at *
          obtain ⟨hq, hnodup⟩ := List.nodup_cons.mp hnodup
          obtain ⟨hlive₀, hlive⟩ := List.forall_mem_cons.mp hlive
          rw [List.mem_cons, not_or] at hp
          have htable₁ : (m.heap.remove q).block p = some (.table entries) :=
            (BlockHeap.block_remove_of_ne hp.1).trans htable
          obtain ⟨heap, hheap, hrun⟩ := ih (m := { m with heap := m.heap.remove q }) htable₁ hnodup
            hp.2 fun r hr => by
              rw [BlockHeap.block_remove_of_ne (ne_of_mem_of_not_mem hr hq)]
              exact hlive r hr
          refine ⟨heap, (BlockHeap.freeAll_cons hlive₀ _).trans hheap, ?_⟩
          rw [hfirst, he]
          show (m.free q >>= _) = _
          rw [free, BlockHeap.free_eq hlive₀]
          exact hrun

/-- The tables of `ts` are freed with their pages, each while nothing of it is freed yet. -/
theorem deleteTables_eq (hi : Intact base m) {ts : List (Fin PT_COUNT)} (heap : BlockHeap HostBlock)
    (hnodup : (ts.flatMap m.tableBlocks).Nodup)
    (hsame : ∀ q ∈ ts.flatMap m.tableBlocks, heap.block q = m.heap.block q) :
    ∃ heap', heap.freeAll (ts.flatMap m.tableBlocks) = some heap' ∧
      ts.foldlM deleteTable { m with heap := heap } = .ok { m with heap := heap' } := by
  induction ts generalizing heap with
  | nil => exact ⟨heap, rfl, rfl⟩
  | cons t ts ih =>
      rw [List.flatMap_cons] at *
      rw [List.foldlM_cons]
      cases ht : m.pageTables t with
      | none =>
          have hblocks : m.tableBlocks t = [] := by simp [tableBlocks, ht]
          have hskip : deleteTable { m with heap := heap } t = .ok { m with heap := heap } := by
            simp [deleteTable, ht]
          rw [hblocks, List.nil_append] at hnodup hsame ⊢
          rw [hskip]
          exact ih heap hnodup hsame
      | some p =>
          obtain ⟨entries, htable⟩ := hi.tables t p ht
          have hblocks : m.tableBlocks t = (List.finRange PE_COUNT).filterMap entries ++ [p] := by
            simp [tableBlocks, ht, tablePages, entry_eq htable]
          have hlive : ∀ q ∈ m.tableBlocks t, (heap.block q).isSome := by
            intro q hq
            rw [hsame q (List.mem_append_left _ hq)]
            rcases mem_tableBlocks.mp hq with h | ⟨e, h⟩
            · exact hi.live h
            · exact hi.live h
          obtain ⟨hown, hrest, hdisjoint⟩ := List.nodup_append.mp hnodup
          rw [hblocks] at hsame hown hdisjoint hlive ⊢
          obtain ⟨hpages, -, hpage⟩ := List.nodup_append.mp hown
          have hp : p ∉ (List.finRange PE_COUNT).filterMap entries := fun hmem =>
            hpage p hmem p (List.mem_singleton_self p) rfl
          -- The pages, then the table, which is still there.
          obtain ⟨heap₁, hheap₁, hrun₁⟩ := deleteEntries_eq (m := { m with heap := heap })
            ((hsame p (by simp)).trans htable) hpages hp
            fun q hq => hlive q (List.mem_append_left _ hq)
          have hlive₁ : (heap₁.block p).isSome := by
            rw [BlockHeap.block_freeAll_of_notMem hheap₁ hp]
            exact hlive p (by simp)
          have hfree : (heap.freeAll ((List.finRange PE_COUNT).filterMap entries ++ [p]))
              = some (heap₁.remove p) := by
            rw [BlockHeap.freeAll_append, hheap₁, Option.bind_some, BlockHeap.freeAll_cons hlive₁]
            rfl
          have hdelete : deleteTable { m with heap := heap } t
              = .ok { m with heap := heap₁.remove p } := by
            simp only [deleteTable, ht, hrun₁, ok_bind, free, BlockHeap.free_eq hlive₁]
          obtain ⟨heap', hheap', hrun⟩ := ih _ hrest fun q hq => by
            rw [BlockHeap.block_freeAll_of_notMem hfree fun hmem => hdisjoint q hmem q hq rfl]
            exact hsame q (List.mem_append_right _ hq)
          refine ⟨heap', ?_, by rw [hdelete]; exact hrun⟩
          rw [BlockHeap.freeAll_append, hfree]
          exact hheap'

/-- `memory_delete` frees what was allocated, each block once. -/
theorem delete_eq (hi : Intact base m) : ∃ m', m.delete = .ok m' ∧ m'.heap.block = base.block := by
  obtain ⟨heap, hheap, hrun⟩ := deleteTables_eq hi m.heap (nodup_blocks hi) fun _ _ => rfl
  obtain ⟨owned, ho, hmem⟩ := hi.owns
  have hperm : m.blocks.Perm owned := (List.perm_ext_iff_of_nodup (nodup_blocks hi) ho.nodup).mpr
    fun q => mem_blocks.trans (hmem q).symm
  obtain ⟨heap', hheap', hbase⟩ := ho.freeAll hperm
  cases hheap'.symm.trans hheap
  exact ⟨_, hrun, hbase⟩

end Calls

end HostMemory

/-! ### Sequences of calls -/

/-- A call, with the pointers. -/
def MemoryOp.runHost : MemoryOp → HostMemory → Except Fault HostMemory
  | allocate address size, m => m.allocate address size
  | writeU8 address data, m => m.writeU8 address data
  | writeU16 address data, m => m.writeU16 address data
  | writeU32 address data, m => m.writeU32 address data
  | copyWrite address size buffer, m => m.copyWrite address size buffer
  | set address size value, m => m.set address size value

open HostMemory in
theorem MemoryOp.runHost_agrees {base : BlockHeap HostBlock} {m : HostMemory} (hi : Intact base m)
    (op : MemoryOp) : Agrees base (op.runHost m) (op.run m.view) := by
  cases op with
  | allocate address size => exact allocate_agrees hi address size
  | writeU8 address data => exact store_agrees hi address _ _
  | writeU16 address data => exact store_agrees hi address _ _
  | writeU32 address data => exact store_agrees hi address _ _
  | copyWrite address size buffer => exact copyWriteLoop_agrees hi _ address size _
  | set address size value => exact copyWriteLoop_agrees hi _ address size _

/-- The guest memory with its pointers, on any heap `base` of the host and after any sequence of
calls with any arguments: it is the memory without them, with the same faults and the same reads,
and `memory_delete` then gives back what was allocated, so that the heap is `base` again. It
frees no block twice and reads none that is freed. -/
theorem hostMemory_refines (base : BlockHeap HostBlock) (ops : List MemoryOp) :
    let host := ops.foldlM (fun m op => op.runHost m) (HostMemory.empty base).create
    host.map HostMemory.view
        = ops.foldlM (fun memory op => op.run memory) (memoryCreate Memory.empty) ∧
      ∀ m, host = .ok m →
        (∀ address, m.readU8 address = memoryReadU8 m.view address ∧
          m.readU16 address = memoryReadU16 m.view address ∧
          m.readU32 address = memoryReadU32 m.view address) ∧
        (∀ address size, m.copyRead address size = memoryCopyRead m.view address size) ∧
        ∃ m', m.delete = .ok m' ∧ m'.heap.block = base.block := by
  intro host
  have hcreate : HostMemory.Intact base (HostMemory.empty base).create := by
    obtain ⟨hinj, htables, hpages, howns⟩ := HostMemory.intact_empty base
    exact ⟨hinj, htables, hpages, howns⟩
  have hagrees : HostMemory.Agrees base host
      (ops.foldlM (fun memory op => op.run memory) (memoryCreate Memory.empty)) := by
    refine .foldlM ⟨hcreate, rfl⟩ ?_
    rintro m _ ⟨hi, rfl⟩ op -
    exact op.runHost_agrees hi
  refine ⟨hagrees.map_eq fun _ _ h => h.2, fun m hm => ?_⟩
  obtain ⟨_, -, hi, -⟩ := hagrees.left hm
  exact ⟨fun address => ⟨HostMemory.readU8_eq hi address, HostMemory.readU16_eq hi address,
    HostMemory.readU32_eq hi address⟩, fun address size => HostMemory.copyReadLoop_eq hi _ _ _,
    HostMemory.delete_eq hi⟩

end MipsEngines
