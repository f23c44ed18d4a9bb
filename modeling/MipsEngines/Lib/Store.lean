import Mathlib.Data.List.Basic

/-!
# `MipsEngines.Lib.Store`: memories of cells that are allocated and written

A `Store α β` maps addresses of type `α` to cells of type `β`; an address with no cell is
unmapped. Two operations: cells are allocated where there are none, with an initial
value, and cells are written. Both name their addresses by a predicate or a partial
function, so ranges, alignment and wrapping are left to the program.

`StoreRun` is a sequence of operations that writes only to mapped cells. Its two results
are the specification of such a memory: `StoreRun.isSome_iff`, an address is mapped when
some allocation covered it, and `StoreRun.value`, a cell holds what was last written.

`foldl_pointwise` is for memories that are updated by a loop over disjoint or
overlapping parts.
-/

set_option autoImplicit false

namespace MipsEngines.Lib

variable {α β ι σ : Type}

/-- A memory: the cell at each address that has one. -/
abbrev Store (α β : Type) := α → Option β

open Classical in
/-- Cells where `covers` holds: those that are there stay, the others are new. -/
noncomputable def Store.allocate (zero : β) (covers : α → Prop) (s : Store α β) : Store α β :=
  fun a => if covers a then some ((s a).getD zero) else s a

/-- The cells for which `data` has a value are overwritten. -/
def Store.write (data : α → Option β) (s : Store α β) : Store α β :=
  fun a => (s a).map fun b => (data a).getD b

/-- An operation on a store. -/
inductive StoreOp (α β : Type)
  | allocate (covers : α → Prop)
  | write (data : α → Option β)

namespace StoreOp

/-- The address is in an allocated range. -/
def Covers : StoreOp α β → α → Prop
  | allocate covers, a => covers a
  | write _, _ => False

/-- What the operation writes at an address. -/
def written : StoreOp α β → α → Option β
  | allocate _, _ => none
  | write data, a => data a

noncomputable def apply (zero : β) : StoreOp α β → Store α β → Store α β
  | allocate covers, s => s.allocate zero covers
  | write data, s => s.write data

end StoreOp

/-- The value last written at `a`, `zero` if there is none. -/
def lastWritten (zero : β) (ops : List (StoreOp α β)) (a : α) : β :=
  ops.foldl (fun b op => (op.written a).getD b) zero

/-- A sequence of operations on an empty store that writes to mapped cells only. -/
inductive StoreRun (zero : β) : List (StoreOp α β) → Store α β → Prop
  | nil : StoreRun zero [] fun _ => none
  | snoc {ops : List (StoreOp α β)} {s : Store α β} (run : StoreRun zero ops s)
      (op : StoreOp α β) (mapped : ∀ a b, op.written a = some b → (s a).isSome) :
      StoreRun zero (ops ++ [op]) (op.apply zero s)

theorem Store.isSome_allocate (zero : β) (covers : α → Prop) (s : Store α β) (a : α) :
    (s.allocate zero covers a).isSome ↔ covers a ∨ (s a).isSome := by
  unfold Store.allocate
  split_ifs with h
  · simp [h]
  · simp [h]

theorem Store.isSome_write (data : α → Option β) (s : Store α β) (a : α) :
    (s.write data a).isSome ↔ (s a).isSome := by
  simp [Store.write]

/-- Two writes are one, in which the later data wins. -/
theorem Store.write_write (first second : α → Option β) (s : Store α β) :
    (s.write first).write second = s.write fun a => (second a).or (first a) := by
  funext a
  simp only [Store.write, Option.map_map]
  cases second a <;> rfl

/-- Two writes have the same effect when they agree on the cells there are. -/
theorem Store.write_eq_write_iff (first second : α → Option β) (s : Store α β) :
    s.write first = s.write second ↔
      ∀ a b, s a = some b → (first a).getD b = (second a).getD b := by
  constructor
  · intro h a b hb
    have ha := congrFun h a
    simpa only [Store.write, hb, Option.map_some, Option.some.injEq] using ha
  · intro h
    funext a
    cases hb : s a with
    | none => simp [Store.write, hb]
    | some b => simp [Store.write, hb, h a b hb]

theorem lastWritten_append (zero : β) (ops : List (StoreOp α β)) (op : StoreOp α β) (a : α) :
    lastWritten zero (ops ++ [op]) a = (op.written a).getD (lastWritten zero ops a) := by
  simp [lastWritten, List.foldl_append]

/-- Where nothing is written, the value is `zero`. -/
theorem lastWritten_of_unwritten {zero : β} {ops : List (StoreOp α β)} {a : α}
    (h : ∀ op ∈ ops, op.written a = none) : lastWritten zero ops a = zero := by
  unfold lastWritten
  induction ops with
  | nil => rfl
  | cons op ops ih =>
      rw [List.foldl_cons, h op List.mem_cons_self]
      exact ih fun op' hop' => h op' (List.mem_cons_of_mem _ hop')

/-- Where all that write write the same, the value is that one. -/
theorem lastWritten_of_agree {zero b : β} {ops : List (StoreOp α β)} {a : α}
    (hsome : ∃ op ∈ ops, op.written a = some b)
    (hagree : ∀ op ∈ ops, ∀ b', op.written a = some b' → b' = b) :
    lastWritten zero ops a = b := by
  have hkeep : ∀ ops : List (StoreOp α β), (∀ op ∈ ops, ∀ b', op.written a = some b' → b' = b) →
      ops.foldl (fun b op => (op.written a).getD b) b = b := by
    intro ops
    induction ops with
    | nil => exact fun _ => rfl
    | cons op ops ih =>
        intro hagree
        have hop : (op.written a).getD b = b := by
          cases hw : op.written a with
          | none => rfl
          | some b' => exact hagree op List.mem_cons_self b' hw
        rw [List.foldl_cons, hop]
        exact ih fun op' hop' => hagree op' (List.mem_cons_of_mem _ hop')
  -- Up to the operation that writes `b`, and from there on.
  obtain ⟨op, hop, hw⟩ := hsome
  obtain ⟨before, after, rfl⟩ := List.append_of_mem hop
  unfold lastWritten
  rw [List.foldl_append, List.foldl_cons, hw, Option.getD_some]
  exact hkeep after fun op' hop' =>
    hagree op' (List.mem_append_right _ (List.mem_cons_of_mem _ hop'))

/-- An address is mapped exactly when some allocation covered it. -/
theorem StoreRun.isSome_iff {zero : β} {ops : List (StoreOp α β)} {s : Store α β}
    (h : StoreRun zero ops s) (a : α) : (s a).isSome ↔ ∃ op ∈ ops, op.Covers a := by
  induction h with
  | nil => simp
  | @snoc ops s _ op _ ih =>
      have hsplit : (∃ op' ∈ ops ++ [op], op'.Covers a) ↔
          op.Covers a ∨ ∃ op' ∈ ops, op'.Covers a := by
        simp [or_and_right, exists_or, or_comm]
      rw [hsplit, ← ih]
      cases op with
      | allocate covers => exact Store.isSome_allocate zero covers s a
      | write data =>
          show (s.write data a).isSome ↔ False ∨ _
          rw [Store.isSome_write, false_or]

/-- Nothing has been written at an unmapped address. -/
theorem StoreRun.unwritten {zero : β} {ops : List (StoreOp α β)} {s : Store α β}
    (h : StoreRun zero ops s) {a : α} (ha : s a = none) : lastWritten zero ops a = zero := by
  induction h with
  | nil => rfl
  | @snoc ops s _ op mapped ih =>
      -- No operation unmaps, so the key was unmapped before, and a write there would not run.
      have hbefore : s a = none := by
        cases op with
        | allocate covers =>
            have hnone : ¬ (covers a ∨ (s a).isSome) := by
              rw [← Store.isSome_allocate zero covers s a]
              show ¬ (StoreOp.apply zero (.allocate covers) s a).isSome = true
              rw [ha]
              simp
            simpa using fun hs => hnone (.inr hs)
        | write data => simpa [StoreOp.apply, Store.write] using ha
      have hnot : op.written a = none := by
        cases hw : op.written a with
        | none => rfl
        | some b =>
            have hsome := mapped a b hw
            rw [hbefore] at hsome
            cases hsome
      rw [lastWritten_append, hnot]
      exact ih hbefore

/-- A mapped cell holds what was last written there, `zero` if nothing was. -/
theorem StoreRun.value {zero : β} {ops : List (StoreOp α β)} {s : Store α β}
    (h : StoreRun zero ops s) {a : α} {b : β} (hb : s a = some b) :
    b = lastWritten zero ops a := by
  induction h generalizing b with
  | nil => cases hb
  | @snoc ops s run op mapped ih =>
      rw [lastWritten_append]
      cases op with
      | allocate covers =>
          show b = lastWritten zero ops a
          have happ : (s.allocate zero covers) a = some b := hb
          cases hs : s a with
          | some b' =>
              have hkeep : (s.allocate zero covers) a = some b' := by
                simp [Store.allocate, hs]
              rw [← Option.some.inj (hkeep.symm.trans happ)]
              exact ih hs
          | none =>
              -- A new cell: zero, and nothing was written there before.
              rw [run.unwritten hs]
              by_cases hc : covers a
              · simpa [Store.allocate, hs, hc, eq_comm] using happ
              · simp [Store.allocate, hs, hc] at happ
      | write data =>
          have happ : (s.write data) a = some b := hb
          cases hs : s a with
          | none => simp [Store.write, hs] at happ
          | some b' =>
              rw [← ih hs]
              show b = (data a).getD b'
              simpa [Store.write, hs, eq_comm] using happ

/-- The same for a cell of which it is only known that it is there. -/
theorem StoreRun.eq_lastWritten {zero : β} {ops : List (StoreOp α β)} {s : Store α β}
    (h : StoreRun zero ops s) {a : α} (ha : (s a).isSome) :
    s a = some (lastWritten zero ops a) := by
  obtain ⟨b, hb⟩ := Option.isSome_iff_exists.mp ha
  rw [hb, h.value hb]

/-- A loop that updates a memory part by part. Step `i` changes the view at `a` by `g` where
`P i a` holds, and nowhere else. If changing twice is changing once, the loop changes the
view where `P i a` holds for some step, and nowhere else. -/
theorem foldl_pointwise {f : σ → ι → σ} (view : σ → α → β) (P : ι → α → Prop) (g : β → β)
    (hg : ∀ b, g (g b) = g b) (l : List ι) (a : α)
    (hin : ∀ i ∈ l, ∀ s, P i a → view (f s i) a = g (view s a))
    (hout : ∀ i ∈ l, ∀ s, ¬ P i a → view (f s i) a = view s a) (s : σ) :
    ((∃ i ∈ l, P i a) → view (l.foldl f s) a = g (view s a)) ∧
      ((∀ i ∈ l, ¬ P i a) → view (l.foldl f s) a = view s a) := by
  induction l generalizing s with
  | nil => simp
  | cons i l ih =>
      obtain ⟨hsome, hnone⟩ := ih (fun j hj => hin j (List.mem_cons_of_mem _ hj))
        (fun j hj => hout j (List.mem_cons_of_mem _ hj)) (f s i)
      have hi : i ∈ i :: l := List.mem_cons_self
      rw [List.foldl_cons]
      constructor
      · rintro ⟨j, hj, hP⟩
        by_cases hl : ∃ k ∈ l, P k a
        · rw [hsome hl]
          by_cases hPi : P i a
          · rw [hin i hi s hPi, hg]
          · rw [hout i hi s hPi]
        · -- The step that changes the view is the first one.
          have hji : j = i := by
            rcases List.mem_cons.mp hj with hji | hj
            · exact hji
            · exact absurd ⟨j, hj, hP⟩ hl
          rw [hnone fun k hk hPk => hl ⟨k, hk, hPk⟩, hin i hi s (hji ▸ hP)]
      · intro hall
        rw [hnone fun k hk => hall k (List.mem_cons_of_mem _ hk), hout i hi s (hall i hi)]

end MipsEngines.Lib
