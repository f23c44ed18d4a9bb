import Mathlib.Algebra.Ring.Nat
import Mathlib.Data.List.Nodup
import Mathlib.Data.List.Perm.Basic

/-!
# `MipsEngines.Lib.ChainedTable`: items filed in chains by an index

The list level of a hash table with chaining, over items of any type. `Filed index items
chain` says that chain `i` has the items with index `i`, in some order. The order inside a
chain is the program's own affair: a table that grows turns its chains round.

* `Filed.push`, `Filed.erase`: an item is added, an item is removed.
* `Filed.flatMap_perm`: the chains together are the items.
* `Filed.find?`: with distinct keys, a search of one chain is a search of all items.
-/

set_option autoImplicit false

namespace MipsEngines.Lib

variable {α κ : Type} {index : α → Nat} {items : List α} {chain : Nat → List α}

/-- Chain `i` has the items with index `i`. -/
def Filed (index : α → Nat) (items : List α) (chain : Nat → List α) : Prop :=
  ∀ i, (chain i).Perm (items.filter fun a => index a = i)

/-- An item is put in front of its chain. -/
def pushChain (index : α → Nat) (chain : Nat → List α) (a : α) : Nat → List α :=
  fun i => if i = index a then a :: chain i else chain i

theorem pushChain_self (index : α → Nat) (chain : Nat → List α) (a : α) :
    pushChain index chain a (index a) = a :: chain (index a) := if_pos rfl

theorem pushChain_of_ne {a : α} {i : Nat} (h : i ≠ index a) (chain : Nat → List α) :
    pushChain index chain a i = chain i := if_neg h

namespace Filed

theorem nil (index : α → Nat) : Filed index [] fun _ => [] := fun _ => .refl _

theorem mem_iff (h : Filed index items chain) {a : α} {i : Nat} :
    a ∈ chain i ↔ a ∈ items ∧ index a = i := by
  rw [(h i).mem_iff, List.mem_filter, decide_eq_true_iff]

/-- The order of the items does not matter. -/
theorem perm {items' : List α} (h : Filed index items chain) (hperm : items.Perm items') :
    Filed index items' chain := fun i => (h i).trans (hperm.filter _)

/-- Only the indices of the items matter. -/
theorem congr {index' : α → Nat} (h : Filed index items chain)
    (hindex : ∀ a ∈ items, index' a = index a) : Filed index' items chain := fun i =>
  (h i).trans (.of_eq (List.filter_congr fun a ha => by rw [hindex a ha]))

theorem push (h : Filed index items chain) (a : α) :
    Filed index (items ++ [a]) (pushChain index chain a) := by
  intro i
  rw [List.filter_append]
  by_cases hi : i = index a
  · subst hi
    rw [pushChain_self]
    have hone : ([a].filter fun b => index b = index a) = [a] := by simp
    rw [hone]
    exact ((h _).cons a).trans (List.perm_append_singleton _ _).symm
  · rw [pushChain_of_ne hi]
    have hnone : ([a].filter fun b => index b = i) = [] := by simp [Ne.symm hi]
    rw [hnone, List.append_nil]
    exact h i

/-- An item is taken out of its chain. -/
theorem erase [DecidableEq α] (h : Filed index items chain) (hnodup : items.Nodup) (a : α) :
    Filed index (items.erase a) fun i => (chain i).erase a := by
  intro i
  refine ((h i).erase a).trans ?_
  rw [hnodup.erase_eq_filter, (hnodup.filter _).erase_eq_filter, List.filter_filter,
    List.filter_filter]
  exact .of_eq (List.filter_congr fun b _ => Bool.and_comm _ _)

/-- The chains together are the items, if every index is in range. -/
theorem flatMap_perm (h : Filed index items chain) {n : Nat} (hindex : ∀ a ∈ items, index a < n) :
    ((List.range n).flatMap chain).Perm items := by
  induction items generalizing chain with
  | nil =>
      have hempty : ∀ i ∈ List.range n, chain i = [] := fun i _ => List.perm_nil.mp (h i)
      rw [List.flatMap_congr hempty]
      simp
  | cons a items ih =>
      -- Without `a` they are the other items; `a` is in one of them, once.
      have hrest : Filed index items fun i => items.filter fun b => index b = i := fun _ => .refl _
      have hperm := ih hrest fun b hb => hindex b (List.mem_cons_of_mem _ hb)
      have ha := hindex a List.mem_cons_self
      have hchain : ∀ i ∈ List.range n, (chain i).Perm
          (if i = index a then a :: items.filter fun b => index b = i
            else items.filter fun b => index b = i) := by
        intro i _
        refine (h i).trans (.of_eq ?_)
        by_cases hi : i = index a
        · rw [if_pos hi, List.filter_cons_of_pos (by simp [hi])]
        · rw [if_neg hi, List.filter_cons_of_neg (by simpa using Ne.symm hi)]
      refine (List.Perm.flatMap_left _ hchain).trans (.trans ?_ (hperm.cons a))
      obtain ⟨before, after, hsplit⟩ := List.append_of_mem (List.mem_range.mpr ha)
      have hnodup : (before ++ index a :: after).Nodup := hsplit ▸ List.nodup_range
      have hout : ∀ i ∈ before ++ after, i ≠ index a := by
        intro i hi heq
        subst heq
        exact (List.nodup_middle.mp hnodup |> List.nodup_cons.mp).1 hi
      have hsame : ∀ l : List Nat, (∀ i ∈ l, i ≠ index a) →
          (l.flatMap fun i => if i = index a then a :: items.filter fun b => index b = i
            else items.filter fun b => index b = i)
            = l.flatMap fun i => items.filter fun b => index b = i := fun l hl =>
        List.flatMap_congr fun i hi => if_neg (hl i hi)
      rw [hsplit, List.flatMap_append, List.flatMap_append, List.flatMap_cons, List.flatMap_cons,
        if_pos rfl, hsame before fun i hi => hout i (List.mem_append_left _ hi),
        hsame after fun i hi => hout i (List.mem_append_right _ hi)]
      exact List.perm_middle

/-- The lengths of the chains add up. -/
theorem sum_length (h : Filed index items chain) {n : Nat} (hindex : ∀ a ∈ items, index a < n) :
    ((List.range n).map fun i => (chain i).length).sum = items.length := by
  rw [← (h.flatMap_perm hindex).length_eq, List.length_flatMap]

theorem length_le (h : Filed index items chain) (i : Nat) : (chain i).length ≤ items.length := by
  rw [(h i).length_eq]
  exact List.length_filter_le _ _

/-- With distinct keys, what a search of the chain of a key finds is what a search of all items
finds. -/
theorem find? [DecidableEq κ] (h : Filed index items chain) {key : α → κ} {place : κ → Nat}
    (hplace : ∀ a ∈ items, index a = place (key a))
    (hkeys : ∀ a ∈ items, ∀ b ∈ items, key a = key b → a = b) (k : κ) :
    (chain (place k)).find? (fun a => key a = k) = items.find? fun a => key a = k := by
  cases hfound : items.find? fun a => key a = k with
  | none =>
      rw [List.find?_eq_none] at hfound ⊢
      exact fun a ha => hfound a (h.mem_iff.mp ha).1
  | some a =>
      have hmem := List.mem_of_find?_eq_some hfound
      have hkey : key a = k := by simpa using List.find?_some hfound
      cases hchain : (chain (place k)).find? fun a => key a = k with
      | none =>
          rw [List.find?_eq_none] at hchain
          refine absurd (decide_eq_true hkey) (hchain a ?_)
          exact h.mem_iff.mpr ⟨hmem, (hplace a hmem).trans (congrArg place hkey)⟩
      | some b =>
          have hb := (h.mem_iff.mp (List.mem_of_find?_eq_some hchain)).1
          have hkeyb : key b = k := by simpa using List.find?_some hchain
          rw [hkeys b hb a hmem (hkeyb.trans hkey.symm)]

end Filed

end MipsEngines.Lib
