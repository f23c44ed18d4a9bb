import Mathlib.Data.List.Nodup
import Mathlib.Data.List.Perm.Basic

/-!
# `MipsEngines.Lib.BlockHeap`: blocks that are allocated, changed and freed

A heap of whole blocks of any type `β`, for programs that allocate on the heap of their host. A
block keeps the number it was allocated under, and no number is given out twice, so a pointer
that outlives its block is a pointer to nothing. Freeing what is not there is `none`, and so is
storing to it.

`Owns base h owned` says what a part of a program did to the heap since it was `base`: the blocks
of `owned` are its own, and the others are as they were. The rules are one an operation, and
`Owns.freeAll` is what they are for: freeing the own blocks, in whatever order and each one
once, is possible and leaves `base`.
-/

set_option autoImplicit false

namespace MipsEngines.Lib

variable {β : Type}

/-- The blocks by their numbers, and the number of the next one. -/
structure BlockHeap (β : Type) where
  block : Nat → Option β
  next : Nat
  fresh : ∀ p, next ≤ p → block p = none

namespace BlockHeap

/-- The heap of a program that has allocated nothing. -/
def empty : BlockHeap β := ⟨fun _ => none, 0, fun _ _ => rfl⟩

/-- A block is allocated, under the number `h.next`. -/
def alloc (h : BlockHeap β) (b : β) : BlockHeap β where
  block := fun p => if p = h.next then some b else h.block p
  next := h.next + 1
  fresh := fun p hp => by
    rw [if_neg (by omega)]
    exact h.fresh p (by omega)

/-- The block `p` is replaced, if it is there. -/
def store (h : BlockHeap β) (p : Nat) (b : β) : BlockHeap β where
  block := fun q => if q = p then (h.block p).map fun _ => b else h.block q
  next := h.next
  fresh := fun q hq => by
    split_ifs with hqp
    · rw [← hqp, h.fresh q hq]
      rfl
    · exact h.fresh q hq

/-- The block `p` is taken away. -/
def remove (h : BlockHeap β) (p : Nat) : BlockHeap β where
  block := fun q => if q = p then none else h.block q
  next := h.next
  fresh := fun q hq => by simp [h.fresh q hq]

/-- Only a block that is there can be freed. -/
def free (h : BlockHeap β) (p : Nat) : Option (BlockHeap β) :=
  if (h.block p).isSome then some (h.remove p) else none

/-- One block after the other. -/
def freeAll (h : BlockHeap β) (ps : List Nat) : Option (BlockHeap β) := ps.foldlM free h

variable {h base : BlockHeap β} {p q : Nat} {b : β} {owned : List Nat}

@[simp] theorem block_alloc_next : (h.alloc b).block h.next = some b := if_pos rfl

theorem block_alloc_of_ne (hq : q ≠ h.next) : (h.alloc b).block q = h.block q := if_neg hq

/-- What is there stays where it is. -/
theorem block_alloc_of_isSome (hq : (h.block q).isSome) : (h.alloc b).block q = h.block q := by
  refine block_alloc_of_ne ?_
  rintro rfl
  rw [h.fresh _ (Nat.le_refl _)] at hq
  cases hq

theorem block_store_self (hp : (h.block p).isSome) : (h.store p b).block p = some b := by
  obtain ⟨b', hb'⟩ := Option.isSome_iff_exists.mp hp
  simp [store, hb']

theorem block_store_of_ne (hq : q ≠ p) : (h.store p b).block q = h.block q := if_neg hq

@[simp] theorem block_remove_self : (h.remove p).block p = none := if_pos rfl

theorem block_remove_of_ne (hq : q ≠ p) : (h.remove p).block q = h.block q := if_neg hq

theorem free_eq (hp : (h.block p).isSome) : h.free p = some (h.remove p) := if_pos hp

@[simp] theorem freeAll_nil : h.freeAll [] = some h := rfl

theorem freeAll_cons (hp : (h.block p).isSome) (ps : List Nat) :
    h.freeAll (p :: ps) = (h.remove p).freeAll ps := by
  rw [freeAll, List.foldlM_cons, free_eq hp]
  rfl

theorem freeAll_append (ps qs : List Nat) :
    h.freeAll (ps ++ qs) = (h.freeAll ps).bind fun h' => h'.freeAll qs := List.foldlM_append ..

/-- Freeing some blocks leaves the others. -/
theorem block_freeAll_of_notMem {h' : BlockHeap β} {ps : List Nat} (hrun : h.freeAll ps = some h')
    (hq : q ∉ ps) : h'.block q = h.block q := by
  induction ps generalizing h with
  | nil =>
      cases hrun
      rfl
  | cons p ps ih =>
      rw [List.mem_cons, not_or] at hq
      rw [freeAll, List.foldlM_cons] at hrun
      obtain ⟨h₁, hfirst, hrest⟩ := Option.bind_eq_some_iff.mp hrun
      unfold free at hfirst
      split_ifs at hfirst
      cases hfirst
      rw [ih hrest hq.2, block_remove_of_ne hq.1]

/-- Distinct blocks that are there can be freed, and they alone are gone then. -/
theorem freeAll_eq {ps : List Nat} (hnodup : ps.Nodup) (hlive : ∀ p ∈ ps, (h.block p).isSome) :
    ∃ h', h.freeAll ps = some h' ∧ ∀ q, h'.block q = if q ∈ ps then none else h.block q := by
  induction ps generalizing h with
  | nil => exact ⟨h, rfl, by simp⟩
  | cons p ps ih =>
      obtain ⟨hp, hnodup⟩ := List.nodup_cons.mp hnodup
      obtain ⟨hlive₀, hlive⟩ := List.forall_mem_cons.mp hlive
      have hlive' : ∀ q ∈ ps, ((h.remove p).block q).isSome := fun q hq => by
        rw [block_remove_of_ne (ne_of_mem_of_not_mem hq hp)]
        exact hlive q hq
      obtain ⟨h', hrun, hblock⟩ := ih hnodup hlive'
      refine ⟨h', (freeAll_cons hlive₀ ps).trans hrun, fun q => ?_⟩
      rw [hblock]
      by_cases hqp : q = p
      · simp [hqp]
      · simp [hqp, block_remove_of_ne]

/-- The blocks of `owned` came to those of `base`. -/
structure Owns (base h : BlockHeap β) (owned : List Nat) : Prop where
  nodup : owned.Nodup
  live : ∀ p ∈ owned, (h.block p).isSome
  absent : ∀ p ∈ owned, base.block p = none
  rest : ∀ p, p ∉ owned → h.block p = base.block p

namespace Owns

theorem nil (base : BlockHeap β) : Owns base base [] :=
  ⟨List.nodup_nil, by simp, by simp, fun _ _ => rfl⟩

/-- The number of the next block is that of none of the own ones. -/
theorem next_notMem (ho : Owns base h owned) : h.next ∉ owned := by
  intro hmem
  have hlive := ho.live _ hmem
  rw [h.fresh _ (Nat.le_refl _)] at hlive
  cases hlive

theorem alloc (ho : Owns base h owned) (b : β) : Owns base (h.alloc b) (h.next :: owned) := by
  have hnext := ho.next_notMem
  refine ⟨List.nodup_cons.mpr ⟨hnext, ho.nodup⟩, fun p hp => ?_, fun p hp => ?_, fun p hp => ?_⟩
  · by_cases hpn : p = h.next
    · simp [hpn]
    · rw [block_alloc_of_ne hpn]
      exact ho.live p ((List.mem_cons.mp hp).resolve_left hpn)
  · rcases List.mem_cons.mp hp with rfl | hp
    · rw [← ho.rest _ hnext, h.fresh _ (Nat.le_refl _)]
    · exact ho.absent p hp
  · rw [List.mem_cons, not_or] at hp
    rw [block_alloc_of_ne hp.1, ho.rest p hp.2]

theorem store (ho : Owns base h owned) (hp : p ∈ owned) (b : β) : Owns base (h.store p b) owned := by
  refine ⟨ho.nodup, fun q hq => ?_, ho.absent, fun q hq => ?_⟩
  · by_cases hqp : q = p
    · rw [hqp, block_store_self (ho.live p hp)]
      rfl
    · rw [block_store_of_ne hqp]
      exact ho.live q hq
  · rw [block_store_of_ne (ne_of_mem_of_not_mem hp hq).symm, ho.rest q hq]

theorem remove (ho : Owns base h (p :: owned)) : Owns base (h.remove p) owned := by
  obtain ⟨hp, hnodup⟩ := List.nodup_cons.mp ho.nodup
  refine ⟨hnodup, fun q hq => ?_, fun q hq => ho.absent q (List.mem_cons_of_mem p hq),
    fun q hq => ?_⟩
  · rw [block_remove_of_ne (ne_of_mem_of_not_mem hq hp)]
    exact ho.live q (List.mem_cons_of_mem p hq)
  · by_cases hqp : q = p
    · rw [hqp, block_remove_self, ho.absent p List.mem_cons_self]
    · rw [block_remove_of_ne hqp, ho.rest q (by simp [hqp, hq])]

theorem perm (ho : Owns base h owned) {owned' : List Nat} (hperm : owned'.Perm owned) :
    Owns base h owned' where
  nodup := hperm.nodup_iff.mpr ho.nodup
  live := fun p hp => ho.live p (hperm.mem_iff.mp hp)
  absent := fun p hp => ho.absent p (hperm.mem_iff.mp hp)
  rest := fun p hp => ho.rest p (mt hperm.mem_iff.mpr hp)

/-- A block of the first part is none of the second one's. -/
theorem notMem {h' : BlockHeap β} {owned' : List Nat} (ho' : Owns h h' owned')
    (hp : (h.block p).isSome) : p ∉ owned' := by
  intro hmem
  rw [ho'.absent p hmem] at hp
  cases hp

/-- What a call allocates comes to what was allocated before it. -/
theorem append {h' : BlockHeap β} {owned' : List Nat} (ho : Owns base h owned)
    (ho' : Owns h h' owned') : Owns base h' (owned ++ owned') := by
  have hold : ∀ p ∈ owned, p ∉ owned' := fun p hp => ho'.notMem (ho.live p hp)
  refine ⟨?_, fun p hp => ?_, fun p hp => ?_, fun p hp => ?_⟩
  · exact List.nodup_append.mpr ⟨ho.nodup, ho'.nodup, fun p hp q hq =>
      (ne_of_mem_of_not_mem hq (hold p hp)).symm⟩
  · rcases List.mem_append.mp hp with hp | hp
    · rw [ho'.rest p (hold p hp)]
      exact ho.live p hp
    · exact ho'.live p hp
  · rcases List.mem_append.mp hp with hp | hp
    · exact ho.absent p hp
    · rw [← ho.rest p fun hmem => hold p hmem hp]
      exact ho'.absent p hp
  · rw [List.mem_append, not_or] at hp
    rw [ho'.rest p hp.2, ho.rest p hp.1]

/-- The own blocks can be freed, and the heap is then what it was. -/
theorem freeAll (ho : Owns base h owned) {ps : List Nat} (hperm : ps.Perm owned) :
    ∃ h', h.freeAll ps = some h' ∧ h'.block = base.block := by
  have ho := ho.perm hperm
  obtain ⟨h', hrun, hblock⟩ := freeAll_eq ho.nodup ho.live
  refine ⟨h', hrun, funext fun p => ?_⟩
  rw [hblock]
  split_ifs with hp
  · exact (ho.absent p hp).symm
  · exact ho.rest p hp

end Owns

end BlockHeap

end MipsEngines.Lib
