import Mathlib.Data.List.Nodup

/-!
# `MipsEngines.Lib.LinkedList`: doubly linked lists

Nodes with two pointers, given by the functions `next` and `prev`; `none` is the null
pointer. `Linked next prev before head l after` says that the nodes from `head` on, up to
`after`, are those of `l`, and that the first of them points back to `before`. A whole list
has `none` on both sides.

The lemmas say what a program does with such a list: a change of pointers elsewhere is not
seen (`Linked.congr`), a node is put in front (`Linked.cons`) or behind (`Linked.concat`),
and a node is taken out (`Linked.erase`). A linked list does not meet a node twice
(`Linked.nodup`), so a loop along it ends.
-/

set_option autoImplicit false

namespace MipsEngines.Lib

variable {α : Type}

/-- The nodes of `l` are linked, between `before` and `after`. -/
def Linked (next prev : α → Option α) : (before head : Option α) → List α → (after : Option α) →
    Prop
  | _, head, [], after => head = after
  | before, head, a :: l, after =>
      head = some a ∧ prev a = before ∧ Linked next prev (some a) (next a) l after

variable {next prev next' prev' : α → Option α} {before head after : Option α} {l : List α}

@[simp] theorem linked_nil : Linked next prev before head [] after ↔ head = after := Iff.rfl

@[simp] theorem linked_cons {a : α} :
    Linked next prev before head (a :: l) after ↔
      head = some a ∧ prev a = before ∧ Linked next prev (some a) (next a) l after := Iff.rfl

/-- The first node. -/
theorem Linked.head_eq (h : Linked next prev before head l after) : head = l.head?.or after := by
  cases l with
  | nil => exact h
  | cons a l => exact h.1

/-- Only the pointers of its own nodes matter. -/
theorem Linked.congr (h : Linked next prev before head l after) (hnext : ∀ a ∈ l, next' a = next a)
    (hprev : ∀ a ∈ l, prev' a = prev a) : Linked next' prev' before head l after := by
  induction l generalizing before head with
  | nil => exact h
  | cons a l ih =>
      obtain ⟨hhead, hback, hrest⟩ := h
      refine ⟨hhead, (hprev a List.mem_cons_self).trans hback, ?_⟩
      rw [hnext a List.mem_cons_self]
      exact ih hrest (fun b hb => hnext b (List.mem_cons_of_mem _ hb))
        (fun b hb => hprev b (List.mem_cons_of_mem _ hb))

/-- A list in two parts. The second one points back to the last node of the first. -/
theorem linked_append {l₁ l₂ : List α} :
    Linked next prev before head (l₁ ++ l₂) after ↔
      ∃ mid, Linked next prev before head l₁ mid ∧
        Linked next prev (l₁.getLast?.or before) mid l₂ after := by
  induction l₁ generalizing before head with
  | nil => simp
  | cons a l₁ ih =>
      have hlast : (a :: l₁).getLast?.or before = l₁.getLast?.or (some a) := by
        cases l₁ with
        | nil => rfl
        | cons b l₁ => rw [List.getLast?_cons_cons, List.getLast?_eq_some_getLast (by simp)]; rfl
      rw [List.cons_append, linked_cons, ih, hlast]
      constructor
      · rintro ⟨hhead, hback, mid, h₁, h₂⟩
        exact ⟨mid, ⟨hhead, hback, h₁⟩, h₂⟩
      · rintro ⟨mid, ⟨hhead, hback, h₁⟩, h₂⟩
        exact ⟨hhead, hback, mid, h₁, h₂⟩

/-- The nodes from a pointer on are determined by the `next` pointers. -/
theorem Linked.unique {before' : Option α} {l' : List α}
    (h : Linked next prev before head l none) (h' : Linked next prev before' head l' none) :
    l = l' := by
  induction l generalizing before before' head l' with
  | nil =>
      cases l' with
      | nil => rfl
      | cons b l' => cases h.symm.trans h'.1
  | cons a l ih =>
      cases l' with
      | nil => cases h.1.symm.trans h'
      | cons b l' =>
          cases h.1.symm.trans h'.1
          rw [ih h.2.2 h'.2.2]

/-- No node is met twice: from its second visit on, the list would go on as from the first. -/
theorem Linked.nodup (h : Linked next prev before head l none) : l.Nodup := by
  induction l generalizing before head with
  | nil => exact List.nodup_nil
  | cons a l ih =>
      refine List.nodup_cons.mpr ⟨fun hmem => ?_, ih h.2.2⟩
      obtain ⟨l₁, l₂, rfl⟩ := List.append_of_mem hmem
      obtain ⟨mid, -, hsecond⟩ := linked_append.mp h.2.2
      have heq := h.2.2.unique hsecond.2.2
      have hlength := congrArg List.length heq
      simp only [List.length_append, List.length_cons] at hlength
      omega

/-- A node points to the nodes on both sides of it. -/
theorem Linked.neighbours {a : α} {l₁ l₂ : List α}
    (h : Linked next prev none head (l₁ ++ a :: l₂) none) :
    prev a = l₁.getLast? ∧ next a = l₂.head? := by
  obtain ⟨mid, -, -, hback, h₂⟩ := linked_append.mp h
  rw [Option.or_none] at hback
  exact ⟨hback, h₂.head_eq.trans (Option.or_none)⟩

/-- What the list is without the node. -/
theorem Linked.erase_eq [DecidableEq α] {a : α} {l₁ l₂ : List α}
    (h : Linked next prev none head (l₁ ++ a :: l₂) none) :
    (l₁ ++ a :: l₂).erase a = l₁ ++ l₂ := by
  have hfresh : a ∉ l₁ := fun hmem =>
    (List.nodup_append.mp h.nodup).2.2 a hmem a List.mem_cons_self rfl
  rw [List.erase_append_right _ hfresh, List.erase_cons_head]

/-- A node without neighbours is the only one. -/
theorem Linked.erase_eq_nil_iff [DecidableEq α] {a : α} (h : Linked next prev none head l none)
    (ha : a ∈ l) : l.erase a = [] ↔ prev a = none ∧ next a = none := by
  obtain ⟨l₁, l₂, rfl⟩ := List.append_of_mem ha
  rw [h.erase_eq, h.neighbours.1, h.neighbours.2, List.append_eq_nil_iff,
    List.getLast?_eq_none_iff, List.head?_eq_none_iff]

theorem Linked.mem_of_prev {a b : α} (h : Linked next prev none head l none) (ha : a ∈ l)
    (hb : prev a = some b) : b ∈ l := by
  obtain ⟨l₁, l₂, rfl⟩ := List.append_of_mem ha
  rw [h.neighbours.1] at hb
  exact List.mem_append_left _ (List.mem_of_getLast? hb)

theorem Linked.mem_of_next {a b : α} (h : Linked next prev none head l none) (ha : a ∈ l)
    (hb : next a = some b) : b ∈ l := by
  obtain ⟨l₁, l₂, rfl⟩ := List.append_of_mem ha
  rw [h.neighbours.2] at hb
  exact List.mem_append_right _ (List.mem_cons_of_mem _ (List.mem_of_head? hb))

/-- Only the first node points back to nothing. -/
theorem Linked.head_eq_some_iff {a : α} (h : Linked next prev none head l none) (ha : a ∈ l) :
    head = some a ↔ prev a = none := by
  have hnodup := h.nodup
  obtain ⟨l₁, l₂, rfl⟩ := List.append_of_mem ha
  rw [h.neighbours.1, h.head_eq, Option.or_none]
  cases l₁ with
  | nil => simp
  | cons b l₁ =>
      have hne : b ≠ a := fun heq => (List.nodup_cons.mp hnodup).1 (by simp [heq])
      simp [hne]

/-- Only the last node points to nothing. -/
theorem Linked.getLast?_eq_some_iff {a : α} (h : Linked next prev none head l none) (ha : a ∈ l) :
    l.getLast? = some a ↔ next a = none := by
  have hnodup := h.nodup
  obtain ⟨l₁, l₂, rfl⟩ := List.append_of_mem ha
  rw [h.neighbours.2]
  cases l₂ with
  | nil => simp
  | cons b l₂ =>
      have hfresh := (List.nodup_cons.mp (List.nodup_append.mp hnodup).2.1).1
      rw [List.getLast?_append_cons, List.getLast?_cons_cons]
      constructor
      · exact fun hlast => absurd (List.mem_of_getLast? hlast) hfresh
      · simp

/-- The node in front of the list is another one: the first node is told, and no other. -/
theorem Linked.rehead {before' : Option α} (h : Linked next prev before head l after)
    (hnodup : l.Nodup) (hnext : ∀ a ∈ l, next' a = next a)
    (hfirst : ∀ a, l.head? = some a → prev' a = before')
    (hprev : ∀ a ∈ l, l.head? ≠ some a → prev' a = prev a) :
    Linked next' prev' before' head l after := by
  cases l with
  | nil => exact h
  | cons a l =>
      obtain ⟨hhead, -, hrest⟩ := h
      refine ⟨hhead, hfirst a rfl, ?_⟩
      rw [hnext a List.mem_cons_self]
      refine hrest.congr (fun b hb => hnext b (List.mem_cons_of_mem _ hb)) fun b hb => ?_
      refine hprev b (List.mem_cons_of_mem _ hb) fun heq => ?_
      cases heq
      exact (List.nodup_cons.mp hnodup).1 hb

/-- A new node in front. -/
theorem Linked.cons {a : α} (h : Linked next prev before head l none) (hnexta : next' a = head)
    (hpreva : prev' a = none) (hnext : ∀ b ∈ l, next' b = next b)
    (hfirst : ∀ b, l.head? = some b → prev' b = some a)
    (hprev : ∀ b ∈ l, l.head? ≠ some b → prev' b = prev b) :
    Linked next' prev' none (some a) (a :: l) none :=
  ⟨rfl, hpreva, hnexta ▸ h.rehead h.nodup hnext hfirst hprev⟩

/-- The end of a list is another one: the last node is told, and no other. -/
theorem Linked.reend {after' : Option α} (h : Linked next prev before head l after)
    (hnodup : l.Nodup) (hlast : ∀ a, l.getLast? = some a → next' a = after')
    (hnext : ∀ a ∈ l, l.getLast? ≠ some a → next' a = next a)
    (hprev : ∀ a ∈ l, prev' a = prev a) (hhead : l = [] → head = after') :
    Linked next' prev' before head l after' := by
  induction l generalizing before head with
  | nil => exact hhead rfl
  | cons a l ih =>
      obtain ⟨ha, hback, hrest⟩ := h
      refine ⟨ha, (hprev a List.mem_cons_self).trans hback, ?_⟩
      cases l with
      | nil => exact hlast a rfl
      | cons b l =>
          obtain ⟨hfresh, hnodup⟩ := List.nodup_cons.mp hnodup
          have hne : (a :: b :: l).getLast? ≠ some a := by
            rw [List.getLast?_cons_cons]
            exact fun heq => hfresh (List.mem_of_getLast? heq)
          rw [hnext a List.mem_cons_self hne]
          refine ih hrest hnodup (fun c hc => hlast c ?_) (fun c hc hc' => ?_)
            (fun c hc => hprev c (List.mem_cons_of_mem _ hc)) (by simp)
          · rw [List.getLast?_cons_cons]
            exact hc
          · refine hnext c (List.mem_cons_of_mem _ hc) ?_
            rw [List.getLast?_cons_cons]
            exact hc'

/-- A new node behind the last one. -/
theorem Linked.concat {a : α} (h : Linked next prev none head l none) (hne : l ≠ [])
    (hnexta : next' a = none) (hpreva : prev' a = l.getLast?)
    (hlast : ∀ b, l.getLast? = some b → next' b = some a)
    (hnext : ∀ b ∈ l, l.getLast? ≠ some b → next' b = next b)
    (hprev : ∀ b ∈ l, prev' b = prev b) : Linked next' prev' none head (l ++ [a]) none := by
  refine linked_append.mpr ⟨some a, ?_, rfl, ?_, hnexta⟩
  · exact h.reend h.nodup hlast hnext hprev fun hnil => absurd hnil hne
  · rw [hpreva, Option.or_none]

/-- A node is taken out: its neighbours are told about each other. -/
theorem Linked.erase [DecidableEq α] {a : α} (h : Linked next prev none head l none) (ha : a ∈ l)
    (hnext : ∀ b ∈ l, b ≠ a → next' b = if prev a = some b then next a else next b)
    (hprev : ∀ b ∈ l, b ≠ a → prev' b = if next a = some b then prev a else prev b) :
    Linked next' prev' none (if prev a = none then next a else head) (l.erase a) none := by
  have hnodup := h.nodup
  obtain ⟨l₁, l₂, rfl⟩ := List.append_of_mem ha
  obtain ⟨hback, hhead₂⟩ := h.neighbours
  obtain ⟨mid, h₁, hmid, -, h₂⟩ := linked_append.mp h
  obtain ⟨hnodup₁, hnodup₂, hapart⟩ := List.nodup_append.mp hnodup
  obtain ⟨hfresh, hnodup₂⟩ := List.nodup_cons.mp hnodup₂
  have hne₁ : ∀ b ∈ l₁, b ≠ a := fun b hb => hapart b hb a List.mem_cons_self
  have hne₂ : ∀ b ∈ l₂, b ≠ a := fun b hb heq => hfresh (heq ▸ hb)
  have hdisjoint : ∀ b ∈ l₁, b ∉ l₂ := fun b hb₁ hb₂ =>
    hapart b hb₁ b (List.mem_cons_of_mem _ hb₂) rfl
  rw [h.erase_eq]
  refine linked_append.mpr ⟨next a, ?_, ?_⟩
  · -- The nodes before it end where it pointed to.
    have hnext₁ : ∀ b ∈ l₁, next' b = if prev a = some b then next a else next b := fun b hb =>
      hnext b (List.mem_append_left _ hb) (hne₁ b hb)
    have hprev₁ : ∀ b ∈ l₁, prev' b = prev b := fun b hb => by
      rw [hprev b (List.mem_append_left _ hb) (hne₁ b hb), if_neg fun heq => ?_]
      exact hdisjoint b hb (List.mem_of_head? (hhead₂.symm.trans heq))
    cases l₁ with
    | nil =>
        rw [hback, List.getLast?_nil, if_pos rfl]
        rfl
    | cons c l₁ =>
        have hsome : prev a ≠ none := by
          rw [hback]
          simp
        rw [if_neg hsome]
        refine h₁.reend hnodup₁ (fun b hb => ?_) (fun b hb hb' => ?_) hprev₁ (by simp)
        · rw [hnext₁ b (List.mem_of_getLast? hb), if_pos (hback.trans hb)]
        · rw [hnext₁ b hb, if_neg (by rwa [hback])]
  · -- The nodes after it point back to where it pointed back to.
    have hmem₂ : ∀ b ∈ l₂, b ∈ l₁ ++ a :: l₂ := fun b hb =>
      List.mem_append_right _ (List.mem_cons_of_mem _ hb)
    rw [Option.or_none, ← hback]
    refine h₂.rehead hnodup₂ (fun b hb => ?_) (fun b hb => ?_) (fun b hb hb' => ?_)
    · rw [hnext b (hmem₂ b hb) (hne₂ b hb), if_neg fun heq => ?_]
      exact hdisjoint b (List.mem_of_getLast? (hback.symm.trans heq)) hb
    · have hb' := List.mem_of_head? hb
      rw [hprev b (hmem₂ b hb') (hne₂ b hb'), if_pos (hhead₂.trans hb)]
    · rw [hprev b (hmem₂ b hb) (hne₂ b hb), if_neg (by rwa [hhead₂])]

end MipsEngines.Lib
