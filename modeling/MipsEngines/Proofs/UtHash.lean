import Mathlib.Data.List.Perm.Subperm
import MipsEngines.Lib.ChainedTable
import MipsEngines.Lib.LinkedList
import MipsEngines.Model.UtHash

/-!
# `MipsEngines.Proofs.UtHash`: the hash table is a map

`Represents h key items` says what the pointers of a table mean: the elements `items` in the
order they were added, the element `p` with the key `key p`. The list of all elements and
every bucket is a doubly linked list (`Lib.Linked`), and the buckets file the elements by
`bucketIndex` (`Lib.Filed`).

Each macro has one lemma: what it makes of a table that represents some elements. The
expansion of the buckets is the long one. It takes the old chains apart while it builds the
new ones; `Expanding` is what holds in between. The number of buckets is a power of two, and
it is in range as long as the table `Fits`.
-/

set_option autoImplicit false

namespace MipsEngines

open Lib

/-- The handle of an element with the key `k`. -/
structure UtHashHandle.HasKey (hh : UtHashHandle) (k : U32) : Prop where
  key : hh.key = k
  keylen : hh.keylen = KEYLEN
  hashv : hh.hashv = hashJen k

namespace UtHash

/-! ### Reading the pointers -/

def appNext (h : UtHash) (p : Nat) : Option Nat := (h.handles p).bind UtHashHandle.next

def appPrev (h : UtHash) (p : Nat) : Option Nat := (h.handles p).bind UtHashHandle.prev

def linkNext (h : UtHash) (p : Nat) : Option Nat := (h.handles p).bind UtHashHandle.hhNext

def linkPrev (h : UtHash) (p : Nat) : Option Nat := (h.handles p).bind UtHashHandle.hhPrev

variable {h h' : UtHash} {p q : Nat} {hh : UtHashHandle}

theorem appNext_eq (hp : h.handles p = some hh) : h.appNext p = hh.next := by simp [appNext, hp]

theorem appPrev_eq (hp : h.handles p = some hh) : h.appPrev p = hh.prev := by simp [appPrev, hp]

theorem linkNext_eq (hp : h.handles p = some hh) : h.linkNext p = hh.hhNext := by
  simp [linkNext, hp]

theorem linkPrev_eq (hp : h.handles p = some hh) : h.linkPrev p = hh.hhPrev := by
  simp [linkPrev, hp]

theorem handleAt_eq_ok : h.handleAt p = .ok hh ↔ h.handles p = some hh := by
  unfold handleAt
  cases h.handles p <;> simp

theorem modifyHandle_eq (hp : h.handles p = some hh) (f : UtHashHandle → UtHashHandle) :
    h.modifyHandle p f = .ok (h.setHandle p (f hh)) := by
  unfold modifyHandle
  rw [handleAt_eq_ok.mpr hp]
  rfl

@[simp] theorem handles_setHandle (h : UtHash) (p : Nat) (hh : UtHashHandle) (q : Nat) :
    (h.setHandle p hh).handles q = if q = p then some hh else h.handles q := rfl

@[simp] theorem handles_setTable (h : UtHash) (t : UtHashTable) :
    (h.setTable t).handles = h.handles := rfl

theorem tableAt_eq {t : UtHashTable} (hhead : h.head = some p) (hp : (h.handles p).isSome)
    (ht : h.tbl = some t) : h.tableAt = .ok t := by
  obtain ⟨hh, hp⟩ := Option.isSome_iff_exists.mp hp
  unfold tableAt
  rw [hhead]
  dsimp only
  rw [handleAt_eq_ok.mpr hp, ok_bind, ht]
  rfl

theorem bucketAt_eq_ok {buckets : List UtHashBucket} {bkt : Nat} {b : UtHashBucket} :
    bucketAt buckets bkt = .ok b ↔ buckets[bkt]? = some b := by
  unfold bucketAt
  cases buckets[bkt]? <;> simp

/-- A number of buckets is a power of two, so the mask takes the remainder. It does so even for
`2 ^ 32`, which is 0, and the mask all ones. -/
theorem hashToBkt_eq (hashv : U32) {k : Nat} (hk : k ≤ 32) :
    hashToBkt hashv (BitVec.ofNat 32 (2 ^ k)) = hashv.toNat % 2 ^ k := by
  have hpos := Nat.two_pow_pos k
  have hle : 2 ^ k ≤ 2 ^ 32 := Nat.pow_le_pow_right (by decide) hk
  have hmask : (BitVec.ofNat 32 (2 ^ k) - 1).toNat = 2 ^ k - 1 := by
    rw [BitVec.toNat_sub, BitVec.toNat_ofNat]
    show (2 ^ 32 - 1 + 2 ^ k % 2 ^ 32) % 2 ^ 32 = 2 ^ k - 1
    omega
  rw [hashToBkt, BitVec.toNat_and, hmask, Nat.and_two_pow_sub_one_eq_mod]

/-! ### Changes of bucket links -/

/-- Two tables that differ in the bucket links of their handles only. -/
structure SameApp (h h' : UtHash) : Prop where
  head : h'.head = h.head
  tbl : h'.tbl = h.tbl
  handle : ∀ p hh, h.handles p = some hh → ∃ x y,
    h'.handles p = some { hh with hhPrev := x, hhNext := y }
  fresh : ∀ p, h.handles p = none → h'.handles p = none

namespace SameApp

theorem refl (h : UtHash) : SameApp h h where
  head := rfl
  tbl := rfl
  handle _ hh hp := ⟨hh.hhPrev, hh.hhNext, hp⟩
  fresh _ hp := hp

theorem trans {h₁ h₂ h₃ : UtHash} (h : SameApp h₁ h₂) (h' : SameApp h₂ h₃) : SameApp h₁ h₃ where
  head := h'.head.trans h.head
  tbl := h'.tbl.trans h.tbl
  handle p hh hp := by
    obtain ⟨x, y, hp₂⟩ := h.handle p hh hp
    obtain ⟨x', y', hp₃⟩ := h'.handle p _ hp₂
    exact ⟨x', y', hp₃⟩
  fresh p hp := h'.fresh p (h.fresh p hp)

theorem isSome (hs : SameApp h h') (p : Nat) : (h'.handles p).isSome = (h.handles p).isSome := by
  cases hp : h.handles p with
  | none => rw [hs.fresh p hp]
  | some hh =>
      obtain ⟨x, y, hp'⟩ := hs.handle p hh hp
      rw [hp']
      rfl

theorem handle_back (hs : SameApp h h') {hh' : UtHashHandle} (hp : h'.handles p = some hh') :
    ∃ hh x y, h.handles p = some hh ∧ hh' = { hh with hhPrev := x, hhNext := y } := by
  cases hold : h.handles p with
  | none => cases (hs.fresh p hold).symm.trans hp
  | some hh =>
      obtain ⟨x, y, hp'⟩ := hs.handle p hh hold
      exact ⟨hh, x, y, rfl, Option.some.inj (hp.symm.trans hp')⟩

theorem appNext (hs : SameApp h h') (p : Nat) : h'.appNext p = h.appNext p := by
  unfold UtHash.appNext
  cases hp : h.handles p with
  | none => rw [hs.fresh p hp]
  | some hh =>
      obtain ⟨x, y, hp'⟩ := hs.handle p hh hp
      rw [hp']
      rfl

theorem appPrev (hs : SameApp h h') (p : Nat) : h'.appPrev p = h.appPrev p := by
  unfold UtHash.appPrev
  cases hp : h.handles p with
  | none => rw [hs.fresh p hp]
  | some hh =>
      obtain ⟨x, y, hp'⟩ := hs.handle p hh hp
      rw [hp']
      rfl

/-- A store to the bucket links of one handle. -/
theorem setHandle (hp : h.handles p = some hh) (x y : Option Nat) :
    SameApp h (h.setHandle p { hh with hhPrev := x, hhNext := y }) where
  head := rfl
  tbl := rfl
  handle q hh' hq := by
    by_cases hqp : q = p
    · subst hqp
      cases hp.symm.trans hq
      exact ⟨x, y, by simp⟩
    · exact ⟨hh'.hhPrev, hh'.hhNext, by simpa [hqp] using hq⟩
  fresh q hq := by
    have hqp : q ≠ p := fun heq => by
      subst heq
      cases hp.symm.trans hq
    simpa [hqp] using hq

end SameApp

/-- The bucket links of `q` are the same in both. -/
def SameLinks (h h' : UtHash) (q : Nat) : Prop :=
  h'.linkNext q = h.linkNext q ∧ h'.linkPrev q = h.linkPrev q

theorem SameLinks.trans {h₁ h₂ h₃ : UtHash} (h : SameLinks h₁ h₂ q) (h' : SameLinks h₂ h₃ q) :
    SameLinks h₁ h₃ q := ⟨h'.1.trans h.1, h'.2.trans h.2⟩

theorem Linked.sameLinks {before head : Option Nat} {l : List Nat}
    (hl : Linked h.linkNext h.linkPrev before head l none) (hsame : ∀ q ∈ l, SameLinks h h' q) :
    Linked h'.linkNext h'.linkPrev before head l none :=
  hl.congr (fun q hq => (hsame q hq).1) (fun q hq => (hsame q hq).2)

/-- The two stores that put a handle in front of a bucket: both link fields of the handle, and
the back link of the handle that was in front. -/
theorem push_front {head : Option Nat} {l : List Nat}
    (hl : Linked h.linkNext h.linkPrev none head l none) (hlive : ∀ q ∈ l, (h.handles q).isSome)
    (hp : h.handles p = some hh) (hfresh : p ∉ l) :
    ∃ h', (do
        let h ← h.modifyHandle p fun hh => { hh with hhPrev := none, hhNext := head }
        h.modifyHandle? head fun hh => { hh with hhPrev := some p }) = .ok h' ∧
      SameApp h h' ∧ Linked h'.linkNext h'.linkPrev none (some p) (p :: l) none ∧
      ∀ q, q ≠ p → q ∉ l → SameLinks h h' q := by
  rw [modifyHandle_eq hp, ok_bind]
  have hsame := SameApp.setHandle hp none head
  cases l with
  | nil =>
      obtain rfl : head = none := hl
      refine ⟨_, rfl, hsame, ⟨rfl, by simp [linkPrev], by simp [linkNext]⟩, fun q hqp _ => ?_⟩
      simp [SameLinks, linkNext, linkPrev, hqp]
  | cons first l =>
      obtain rfl : head = some first := hl.1
      have hne : first ≠ p := fun heq => hfresh (heq ▸ List.mem_cons_self)
      obtain ⟨fh, hfh⟩ := Option.isSome_iff_exists.mp (hlive first List.mem_cons_self)
      have hfh' : (h.setHandle p { hh with hhPrev := none, hhNext := some first }).handles first
          = some fh := by simpa [hne] using hfh
      refine ⟨_, modifyHandle_eq hfh' _, hsame.trans (.setHandle hfh' (some p) fh.hhNext), ?_, ?_⟩
      · refine hl.cons (by simp [linkNext, hne.symm]) (by simp [linkPrev, hne.symm]) ?_ ?_ ?_
        · intro q hq
          have hqp : q ≠ p := fun heq => hfresh (heq ▸ hq)
          by_cases hqf : q = first
          · subst hqf
            simp [linkNext, hfh]
          · simp [linkNext, hqp, hqf]
        · intro q hq
          cases hq
          simp [linkPrev]
        · intro q hq hq'
          have hqp : q ≠ p := fun heq => hfresh (heq ▸ hq)
          have hqf : q ≠ first := fun heq => hq' (heq ▸ rfl)
          simp [linkPrev, hqp, hqf]
      · intro q hqp hq
        have hqf : q ≠ first := fun heq => hq (heq ▸ List.mem_cons_self)
        simp [SameLinks, linkNext, linkPrev, hqp, hqf]

/-! ### Buckets -/

/-- The array `buckets` has `n` of them, and bucket `i` is the linked list `chain i`. -/
structure Bucketed (h : UtHash) (buckets : List UtHashBucket) (n : Nat)
    (chain : Nat → List Nat) : Prop where
  length : buckets.length = n
  linked : ∀ i b, buckets[i]? = some b →
    Linked h.linkNext h.linkPrev none b.hhHead (chain i) none
  count : ∀ i b, buckets[i]? = some b → b.count = BitVec.ofNat 32 (chain i).length

theorem Bucketed.bucketAt {buckets : List UtHashBucket} {n i : Nat} {chain : Nat → List Nat}
    (hb : Bucketed h buckets n chain) (hi : i < n) :
    ∃ b, bucketAt buckets i = .ok b ∧ buckets[i]? = some b := by
  have hlt : i < buckets.length := hb.length ▸ hi
  exact ⟨_, bucketAt_eq_ok.mpr (List.getElem?_eq_getElem hlt), List.getElem?_eq_getElem hlt⟩

/-- Only the handles are looked at. -/
theorem Bucketed.setTable {buckets : List UtHashBucket} {n : Nat} {chain : Nat → List Nat}
    (hb : Bucketed h buckets n chain) (t : UtHashTable) :
    Bucketed (h.setTable t) buckets n chain := ⟨hb.length, hb.linked, hb.count⟩

/-- A new array of buckets, all of them empty. -/
theorem bucketed_zero (h : UtHash) (n : Nat) :
    Bucketed h (List.replicate n .zero) n fun _ => [] where
  length := List.length_replicate
  linked i b hb := by
    rw [List.eq_of_mem_replicate (List.mem_of_getElem? hb)]
    rfl
  count i b hb := by
    rw [List.eq_of_mem_replicate (List.mem_of_getElem? hb)]
    rfl

/-- An element of an array after a store: the stored one, or an old one elsewhere. -/
theorem getElem?_set_eq_some {buckets : List UtHashBucket} {i j : Nat} {b c : UtHashBucket}
    (hc : (buckets.set i b)[j]? = some c) : j = i ∧ c = b ∨ j ≠ i ∧ buckets[j]? = some c := by
  rw [List.getElem?_set] at hc
  split_ifs at hc with hij hlt
  · exact .inl ⟨hij.symm, (Option.some.inj hc).symm⟩
  · exact .inr ⟨Ne.symm hij, hc⟩

/-- One bucket is another list; the links of the others are untouched. -/
theorem Bucketed.set {buckets : List UtHashBucket} {n i : Nat} {chain chain' : Nat → List Nat}
    (hb : Bucketed h buckets n chain) {b : UtHashBucket}
    (hlinked : Linked h'.linkNext h'.linkPrev none b.hhHead (chain' i) none)
    (hcount : b.count = BitVec.ofNat 32 (chain' i).length) (hchain : ∀ j, j ≠ i → chain' j = chain j)
    (hsame : ∀ j, j ≠ i → ∀ q ∈ chain j, SameLinks h h' q) :
    Bucketed h' (buckets.set i b) n chain' where
  length := (List.length_set).trans hb.length
  linked j c hc := by
    rcases getElem?_set_eq_some hc with ⟨rfl, rfl⟩ | ⟨hj, hc⟩
    · exact hlinked
    · rw [hchain j hj]
      exact Linked.sameLinks (hb.linked j c hc) (hsame j hj)
  count j c hc := by
    rcases getElem?_set_eq_some hc with ⟨rfl, rfl⟩ | ⟨hj, hc⟩
    · exact hcount
    · rw [hchain j hj]
      exact hb.count j c hc

/-- The bucket of an element, among `2 ^ k`. -/
def bucketIndex (key : Nat → U32) (k p : Nat) : Nat := (hashJen (key p)).toNat % 2 ^ k

theorem bucketIndex_lt (key : Nat → U32) (k p : Nat) : bucketIndex key k p < 2 ^ k :=
  Nat.mod_lt _ (Nat.two_pow_pos k)

/-- A count of elements goes on by one, in the source's arithmetic. -/
theorem ofNat_length_concat (l : List Nat) (p : Nat) :
    BitVec.ofNat 32 (l ++ [p]).length = BitVec.ofNat 32 l.length + 1 := by
  rw [List.length_append, BitVec.ofNat_add]
  rfl

/-- And back by one. -/
theorem ofNat_length_erase {l : List Nat} {p : Nat} (hp : p ∈ l) :
    BitVec.ofNat 32 (l.erase p).length = BitVec.ofNat 32 l.length - 1 := by
  have hlength := List.length_erase_add_one hp
  rw [← hlength, BitVec.ofNat_add]
  exact (BitVec.add_sub_cancel _ _).symm

/-! ### `HASH_EXPAND_BUCKETS` -/

/-- What holds while buckets are expanded: the elements `moved` are filed in the new ones. -/
structure Expanding (key : Nat → U32) (k : Nat) (h : UtHash) (e : Expansion) (moved : List Nat)
    (chain : Nat → List Nat) : Prop where
  same : SameApp h e.hash
  live : ∀ p ∈ moved, (h.handles p).isSome
  bucketed : Bucketed e.hash e.newBuckets (2 ^ k) chain
  filed : Filed (bucketIndex key k) moved chain

section Expanding

variable {key : Nat → U32} {n : U32} {k : Nat} {e : Expansion} {moved : List Nat}
  {chain : Nat → List Nat}

/-- One more element is moved. The links of those that wait are untouched. -/
theorem expandItem_spec (idealChainMaxlen : U32) (he : Expanding key k h e moved chain)
    (hn : n * 2 = BitVec.ofNat 32 (2 ^ k)) (hk : k ≤ 32) (hp : (h.handles p).isSome)
    (hfresh : p ∉ moved) :
    ∃ e', expandItem n idealChainMaxlen e p (hashJen (key p)) = .ok e' ∧
      Expanding key k h e' (moved ++ [p]) (pushChain (bucketIndex key k) chain p) ∧
      ∀ q, q ≠ p → q ∉ moved → SameLinks e.hash e'.hash q := by
  have hindex := bucketIndex_lt key k p
  obtain ⟨b, hbucket, hb⟩ := he.bucketed.bucketAt hindex
  have hmem : ∀ q i, q ∈ chain i → q ∈ moved := fun q i hq => (he.filed.mem_iff.mp hq).1
  have hlive : ∀ q ∈ chain (bucketIndex key k p), (e.hash.handles q).isSome := fun q hq =>
    he.same.isSome q ▸ he.live q (hmem q _ hq)
  obtain ⟨hh, hhandle⟩ := Option.isSome_iff_exists.mp ((he.same.isSome p).trans hp)
  obtain ⟨hash, hpush, hsame, hlinked, hframe⟩ := push_front (he.bucketed.linked _ b hb) hlive
    hhandle fun hmem' => hfresh (hmem p _ hmem')
  obtain ⟨first, hfirst, hsecond⟩ := bind_eq_ok.mp hpush
  unfold expandItem
  dsimp only
  rw [hn, hashToBkt_eq _ hk]
  show ∃ e', (bucketAt e.newBuckets (bucketIndex key k p) >>= _) = .ok e' ∧ _
  rw [hbucket, ok_bind]
  -- The multiplier is not a part of what the table means.
  generalize hnewbkt : (if decide (b.count + 1 > idealChainMaxlen) = true ∧
      b.count + 1 > b.expandMult * idealChainMaxlen then
        ({ b with count := b.count + 1, expandMult := b.expandMult + 1 } : UtHashBucket)
      else { b with count := b.count + 1 }) = newbkt
  have hhead : newbkt.hhHead = b.hhHead := by
    rw [← hnewbkt]
    split_ifs <;> rfl
  have hcount : newbkt.count = b.count + 1 := by
    rw [← hnewbkt]
    split_ifs <;> rfl
  rw [hhead, hfirst, ok_bind, hsecond, ok_bind]
  refine ⟨⟨hash, e.newBuckets.set (bucketIndex key k p) { newbkt with hhHead := some p }, _⟩,
    rfl, ⟨he.same.trans hsame, fun q hq => ?_, ?_, he.filed.push p⟩, fun q hqp hq => ?_⟩
  · rcases List.mem_append.mp hq with hq | hq
    · exact he.live q hq
    · exact List.mem_singleton.mp hq ▸ hp
  · refine he.bucketed.set ?_ ?_ (fun j hj => pushChain_of_ne hj _) fun j hj q hq => ?_
    · rw [pushChain_self]
      exact hlinked
    · rw [pushChain_self, List.length_cons, BitVec.ofNat_add]
      exact hcount.trans (congrArg (· + 1) (he.bucketed.count _ b hb))
    · -- An element of another bucket is neither `p` nor in the bucket of `p`.
      refine hframe q (fun heq => hfresh (heq ▸ hmem q j hq)) fun hq' => hj ?_
      exact (he.filed.mem_iff.mp hq).2.symm.trans (he.filed.mem_iff.mp hq').2
  · exact hframe q hqp fun hq' => hq (hmem q _ hq')

/-- A whole old chain is moved. -/
theorem expandChain_spec (idealChainMaxlen : U32) {fuel : Nat} {before head : Option Nat}
    {rest : List Nat} (he : Expanding key k h e moved chain) (hn : n * 2 = BitVec.ofNat 32 (2 ^ k)) (hk : k ≤ 32)
    (hlinked : Linked e.hash.linkNext e.hash.linkPrev before head rest none)
    (hfields : ∀ p hh, h.handles p = some hh → hh.hashv = hashJen (key p))
    (hlive : ∀ p ∈ rest, (h.handles p).isSome) (hdisjoint : ∀ p ∈ rest, p ∉ moved)
    (hfuel : rest.length ≤ fuel) :
    ∃ e', expandChain n idealChainMaxlen fuel head e = .ok e' ∧
      Expanding key k h e' (moved ++ rest)
        (rest.foldl (pushChain (bucketIndex key k)) chain) ∧
      ∀ q, q ∉ rest → q ∉ moved → SameLinks e.hash e'.hash q := by
  induction rest generalizing fuel before head e moved chain with
  | nil =>
      obtain rfl : head = none := hlinked
      refine ⟨e, by unfold expandChain; rfl, ?_, fun q _ _ => ⟨rfl, rfl⟩⟩
      rw [List.append_nil]
      exact he
  | cons p rest ih =>
      have hnodup := List.nodup_cons.mp hlinked.nodup
      obtain ⟨rfl, -, hrest⟩ := hlinked
      obtain ⟨fuel, rfl⟩ : ∃ m, fuel = m + 1 := ⟨fuel - 1, by simp at hfuel; omega⟩
      obtain ⟨hh₀, hh₀p⟩ := Option.isSome_iff_exists.mp (hlive p List.mem_cons_self)
      obtain ⟨x, y, hhandle⟩ := he.same.handle p hh₀ hh₀p
      have hfresh := hdisjoint p List.mem_cons_self
      obtain ⟨e₁, hitem, he₁, hframe₁⟩ := expandItem_spec idealChainMaxlen he hn hk
        (hlive p List.mem_cons_self) hfresh
      have hnext : e.hash.linkNext p = y := linkNext_eq hhandle
      -- The rest of the old chain is untouched by the move.
      have hrest₁ : Linked e₁.hash.linkNext e₁.hash.linkPrev (some p) y rest none := by
        rw [hnext] at hrest
        refine Linked.sameLinks hrest fun q hq => hframe₁ q (fun heq => ?_) ?_
        · exact hnodup.1 (heq ▸ hq)
        · exact hdisjoint q (List.mem_cons_of_mem _ hq)
      have hdisjoint₁ : ∀ q ∈ rest, q ∉ moved ++ [p] := by
        intro q hq hq'
        rcases List.mem_append.mp hq' with hmem | hmem
        · exact hdisjoint q (List.mem_cons_of_mem _ hq) hmem
        · exact hnodup.1 (List.mem_singleton.mp hmem ▸ hq)
      obtain ⟨e', hchain, he', hframe⟩ := ih he₁ hrest₁
        (fun q hq => hlive q (List.mem_cons_of_mem _ hq)) hdisjoint₁
        (Nat.le_of_succ_le_succ hfuel)
      refine ⟨e', ?_, ?_, fun q hq hq' => ?_⟩
      · unfold expandChain
        rw [handleAt_eq_ok.mpr hhandle, ok_bind]
        dsimp only
        rw [hfields p hh₀ hh₀p, hitem, ok_bind]
        exact hchain
      · rw [List.append_assoc] at he'
        exact he'
      · rw [List.mem_cons, not_or] at hq
        refine (hframe₁ q hq.1 hq').trans (hframe q hq.2 fun hmem => ?_)
        rcases List.mem_append.mp hmem with hmem | hmem
        · exact hq' hmem
        · exact hq.1 (List.mem_singleton.mp hmem)

/-- The old buckets `bkts` are moved, one after the other. -/
theorem foldlM_expandChain (idealChainMaxlen : U32) {fuel : Nat} {buckets : List UtHashBucket}
    {m : Nat} {old : Nat → List Nat} (hold : Bucketed h buckets m old)
    (hn : n * 2 = BitVec.ofNat 32 (2 ^ k)) (hk : k ≤ 32)
    (hfields : ∀ p hh, h.handles p = some hh → hh.hashv = hashJen (key p)) (bkts : List Nat)
    (hlt : ∀ i ∈ bkts, i < m) (hfuel : ∀ i ∈ bkts, (old i).length ≤ fuel)
    (hlive : ∀ q ∈ bkts.flatMap old, (h.handles q).isSome) (hnodup : (bkts.flatMap old).Nodup)
    (he : Expanding key k h e moved chain) (hdisjoint : ∀ q ∈ bkts.flatMap old, q ∉ moved)
    (huntouched : ∀ q ∈ bkts.flatMap old, SameLinks h e.hash q) :
    ∃ e', bkts.foldlM (fun e bkt => do
        let b ← bucketAt buckets bkt
        expandChain n idealChainMaxlen fuel b.hhHead e) e = .ok e' ∧
      Expanding key k h e' (moved ++ bkts.flatMap old)
        ((bkts.flatMap old).foldl (pushChain (bucketIndex key k)) chain) := by
  induction bkts generalizing e moved chain with
  | nil =>
      refine ⟨e, rfl, ?_⟩
      rw [List.flatMap_nil, List.append_nil]
      exact he
  | cons i bkts ih =>
      rw [List.flatMap_cons] at hlive hnodup hdisjoint huntouched ⊢
      obtain ⟨-, hnodup', hapart⟩ := List.nodup_append.mp hnodup
      obtain ⟨b, hbucket, hb⟩ := hold.bucketAt (hlt i List.mem_cons_self)
      have hlinked := Linked.sameLinks (hold.linked i b hb) fun q hq =>
        huntouched q (List.mem_append_left _ hq)
      obtain ⟨e₁, hchain, he₁, hframe⟩ := expandChain_spec idealChainMaxlen he hn hk
        hlinked hfields (fun q hq => hlive q (List.mem_append_left _ hq))
        (fun q hq => hdisjoint q (List.mem_append_left _ hq)) (hfuel i List.mem_cons_self)
      -- The buckets that are left have other elements than this one.
      have hwaits : ∀ q ∈ bkts.flatMap old, q ∉ old i := fun q hq hq' => hapart q hq' q hq rfl
      obtain ⟨e', hfold, he'⟩ := ih (fun j hj => hlt j (List.mem_cons_of_mem _ hj))
        (fun j hj => hfuel j (List.mem_cons_of_mem _ hj))
        (fun q hq => hlive q (List.mem_append_right _ hq)) hnodup' he₁
        (fun q hq hmem => (List.mem_append.mp hmem).elim
          (hdisjoint q (List.mem_append_right _ hq)) (hwaits q hq))
        (fun q hq => (huntouched q (List.mem_append_right _ hq)).trans
          (hframe q (hwaits q hq) (hdisjoint q (List.mem_append_right _ hq))))
      refine ⟨e', ?_, ?_⟩
      · rw [List.foldlM_cons, hbucket, ok_bind, hchain, ok_bind]
        exact hfold
      · rw [← List.append_assoc, List.foldl_append]
        exact he'

end Expanding

/-! ### The table as a whole -/

/-- No two elements have one key. -/
def KeysDistinct (key : Nat → U32) (items : List Nat) : Prop :=
  ∀ a ∈ items, ∀ b ∈ items, key a = key b → a = b

/-- The table has at most `2 ^ 31` buckets, so `num_buckets` is their number. -/
def Fits (h : UtHash) : Prop := ∀ t ∈ h.tbl, t.log2NumBuckets ≤ 31

instance (h : UtHash) : Decidable h.Fits :=
  inferInstanceAs (Decidable (∀ t ∈ h.tbl, t.log2NumBuckets ≤ 31))

/-- The list of all elements, and what their handles say. -/
structure Listed (h : UtHash) (key : Nat → U32) (items : List Nat) (t : UtHashTable) : Prop where
  head : h.head = items.head?
  tbl : h.tbl = some t
  live : ∀ p, (h.handles p).isSome ↔ p ∈ items
  hasKey : ∀ p hh, h.handles p = some hh → hh.HasKey (key p)
  app : Linked h.appNext h.appPrev none h.head items none
  tail : t.tail = items.getLast?
  keys : KeysDistinct key items
  numItems : t.numItems = BitVec.ofNat 32 items.length
  numBuckets : t.numBuckets = BitVec.ofNat 32 (2 ^ t.log2NumBuckets.toNat)
  log2 : t.log2NumBuckets.toNat ≤ 31

/-- A table with elements: they are listed, and filed in buckets. -/
structure Filled (h : UtHash) (key : Nat → U32) (items : List Nat) (t : UtHashTable)
    (chain : Nat → List Nat) : Prop extends Listed h key items t where
  bucketed : Bucketed h t.buckets (2 ^ t.log2NumBuckets.toNat) chain
  filed : Filed (bucketIndex key t.log2NumBuckets.toNat) items chain

/-- What the pointers mean: the elements `items`, in the order they were added. -/
inductive Represents (h : UtHash) (key : Nat → U32) : List Nat → Prop
  | empty (head : h.head = none) (tbl : h.tbl = none) (handles : ∀ p, h.handles p = none) :
      Represents h key []
  | filled {items : List Nat} {t : UtHashTable} {chain : Nat → List Nat} (nonempty : items ≠ [])
      (filled : Filled h key items t chain) : Represents h key items

section Listed

variable {key : Nat → U32} {items : List Nat} {t : UtHashTable} {chain : Nat → List Nat}

theorem Listed.head_some (hl : Listed h key items t) (hne : items ≠ []) :
    h.head = some (items.head hne) := by
  rw [hl.head, List.head?_eq_some_head hne]

theorem Listed.tableAt (hl : Listed h key items t) (hne : items ≠ []) : h.tableAt = .ok t :=
  tableAt_eq (hl.head_some hne) ((hl.live _).mpr (List.head_mem hne)) hl.tbl

theorem Listed.hashToBkt_eq (hl : Listed h key items t) (hashv : U32) :
    hashToBkt hashv t.numBuckets = hashv.toNat % 2 ^ t.log2NumBuckets.toNat := by
  rw [hl.numBuckets]
  exact UtHash.hashToBkt_eq hashv (Nat.le_succ_of_le hl.log2)

theorem Listed.toNat_numBuckets (hl : Listed h key items t) :
    t.numBuckets.toNat = 2 ^ t.log2NumBuckets.toNat := by
  have hlog := Nat.pow_le_pow_right (by decide : 0 < 2) hl.log2
  rw [hl.numBuckets, BitVec.toNat_ofNat, Nat.mod_eq_of_lt (Nat.lt_of_le_of_lt hlog (by decide))]

theorem Listed.nodup (hl : Listed h key items t) : items.Nodup := hl.app.nodup

/-- There are no more elements than keys. -/
theorem Listed.length_le (hl : Listed h key items t) : items.length ≤ handleFuel := by
  have hnodup : (items.map fun p => (key p).toNat).Nodup :=
    hl.nodup.map_on fun a ha b hb heq => hl.keys a ha b hb (BitVec.eq_of_toNat_eq heq)
  have hsub : (items.map fun p => (key p).toNat) ⊆ List.range handleFuel := by
    intro n hn
    obtain ⟨p, -, rfl⟩ := List.mem_map.mp hn
    exact List.mem_range.mpr (key p).isLt
  have hle := (hnodup.subperm hsub).length_le
  rwa [List.length_map, List.length_range] at hle

/-- A chain has at most all the elements. -/
theorem Filled.chain_length_le (hf : Filled h key items t chain) (i : Nat) :
    (chain i).length ≤ handleFuel := Nat.le_trans (hf.filed.length_le i) hf.toListed.length_le

/-- Changes of bucket links and of the numbers that go with them. -/
theorem Listed.setTable (hl : Listed h key items t) (hsame : SameApp h h') {t' : UtHashTable}
    (htail : t'.tail = t.tail) (hitems : t'.numItems = t.numItems)
    (hbuckets : t'.numBuckets = BitVec.ofNat 32 (2 ^ t'.log2NumBuckets.toNat))
    (hlog : t'.log2NumBuckets.toNat ≤ 31) : Listed (h'.setTable t') key items t' where
  head := hsame.head.trans hl.head
  tbl := rfl
  live p := by
    rw [handles_setTable, hsame.isSome]
    exact hl.live p
  hasKey p hh' hp' := by
    obtain ⟨hh, x, y, hp, rfl⟩ := hsame.handle_back hp'
    have hkey := hl.hasKey p hh hp
    exact ⟨hkey.key, hkey.keylen, hkey.hashv⟩
  app := by
    have happ := hl.app
    rw [← hsame.head] at happ
    exact happ.congr (fun p _ => hsame.appNext p) (fun p _ => hsame.appPrev p)
  tail := htail.trans hl.tail
  keys := hl.keys
  numItems := hitems.trans hl.numItems
  numBuckets := hbuckets
  log2 := hlog

/-- The expansion keeps the elements, in twice as many buckets. It goes through in any case; the
counters are right afterwards if they fit. -/
theorem hashExpandBuckets_spec (hf : Filled h key items t chain) (hne : items ≠ []) :
    ∃ h', h.hashExpandBuckets = .ok h' ∧
      (h'.Fits → ∃ t' chain', Filled h' key items t' chain') := by
  have hlog := hf.log2
  have hnum := hf.toListed.toNat_numBuckets
  have hdouble : t.numBuckets * 2 = BitVec.ofNat 32 (2 ^ (t.log2NumBuckets.toNat + 1)) := by
    rw [hf.numBuckets, Nat.pow_succ, BitVec.ofNat_mul]
    rfl
  have hperm := hf.filed.flatMap_perm fun p _ => bucketIndex_lt key _ p
  have hstart : Expanding key (t.log2NumBuckets.toNat + 1) h
      ⟨h, List.replicate (2 ^ t.log2NumBuckets.toNat * 2) .zero, 0⟩ [] fun _ => [] :=
    ⟨.refl h, by simp, bucketed_zero h _, .nil _⟩
  obtain ⟨e, hfold, he⟩ := foldlM_expandChain
    ((t.numItems >>> (t.log2NumBuckets + 1)) +
      if (t.numItems &&& (t.numBuckets * 2 - 1)) ≠ 0 then 1 else 0)
    hf.bucketed hdouble (Nat.succ_le_succ hlog) (fun p hh hp => (hf.hasKey p hh hp).hashv)
    (List.range (2 ^ t.log2NumBuckets.toNat)) (fun i hi => List.mem_range.mp hi)
    (fun i _ => hf.chain_length_le i) (fun q hq => (hf.live q).mpr (hperm.mem_iff.mp hq))
    (hperm.nodup_iff.mpr hf.toListed.nodup) hstart (by simp) fun q _ => ⟨rfl, rfl⟩
  have hrun : ∃ t', h.hashExpandBuckets = .ok (e.hash.setTable t') ∧ t'.buckets = e.newBuckets ∧
      t'.numBuckets = t.numBuckets * 2 ∧ t'.log2NumBuckets = t.log2NumBuckets + 1 ∧
      t'.tail = t.tail ∧ t'.numItems = t.numItems := by
    unfold hashExpandBuckets
    rw [hf.toListed.tableAt hne, ok_bind]
    dsimp only
    rw [hnum, hfold]
    exact ⟨_, rfl, rfl, rfl, rfl, rfl, rfl⟩
  obtain ⟨t', hrun, hbuckets, hnum', hlog', htail, hcount⟩ := hrun
  have htoNat : t'.log2NumBuckets.toNat = t.log2NumBuckets.toNat + 1 := by
    rw [hlog', BitVec.toNat_add]
    show (t.log2NumBuckets.toNat + 1) % 2 ^ 32 = _
    omega
  refine ⟨_, hrun, fun hfits => ?_⟩
  have hbucketed := he.bucketed.setTable t'
  have hfiled := he.filed.perm hperm
  rw [← htoNat] at hbucketed hfiled hdouble
  rw [← hbuckets] at hbucketed
  exact ⟨t', _, hf.toListed.setTable he.same htail hcount (hnum'.trans hdouble) (hfits t' rfl),
    hbucketed, hfiled⟩

/-- A listed element is filed as well. -/
theorem hashAddToBkt_spec (hl : Listed h key (items ++ [p]) t)
    (hb : Bucketed h t.buckets (2 ^ t.log2NumBuckets.toNat) chain)
    (hfiled : Filed (bucketIndex key t.log2NumBuckets.toNat) items chain) :
    ∃ h', h.hashAddToBkt (bucketIndex key t.log2NumBuckets.toNat p) p = .ok h' ∧
      (h'.Fits → Represents h' key (items ++ [p])) := by
  have hne : items ++ [p] ≠ [] := by simp
  have hfresh : p ∉ items := fun hp =>
    (List.nodup_append.mp hl.nodup).2.2 p hp p List.mem_cons_self rfl
  obtain ⟨b, hbucket, hb'⟩ := hb.bucketAt (bucketIndex_lt key _ p)
  have hmem : ∀ q i, q ∈ chain i → q ∈ items := fun q i hq => (hfiled.mem_iff.mp hq).1
  obtain ⟨hh, hp⟩ := Option.isSome_iff_exists.mp
    ((hl.live p).mpr (List.mem_append_right _ List.mem_cons_self))
  obtain ⟨h₁, hpush, hsame, hlinked, hframe⟩ := push_front (hb.linked _ b hb')
    (fun q hq => (hl.live q).mpr (List.mem_append_left _ (hmem q _ hq))) hp
    fun hp' => hfresh (hmem p _ hp')
  obtain ⟨h₀, hfirst, hsecond⟩ := bind_eq_ok.mp hpush
  -- With the element in its bucket the table is complete again.
  let t' : UtHashTable := { t with
    buckets := t.buckets.set (bucketIndex key t.log2NumBuckets.toNat p)
      { b with count := b.count + 1, hhHead := some p } }
  have hfilled : Filled (h₁.setTable t') key (items ++ [p]) t'
      (pushChain (bucketIndex key t.log2NumBuckets.toNat) chain p) := by
    refine ⟨hl.setTable hsame rfl rfl hl.numBuckets hl.log2, ?_, hfiled.push p⟩
    refine (hb.set ?_ ?_ (fun j hj => pushChain_of_ne hj _) fun j hj q hq => ?_).setTable _
    · rw [pushChain_self]
      exact hlinked
    · rw [pushChain_self, List.length_cons, BitVec.ofNat_add]
      exact congrArg (· + 1) (hb.count _ b hb')
    · refine hframe q (fun heq => hfresh (heq ▸ hmem q j hq)) fun hq' => hj ?_
      exact (hfiled.mem_iff.mp hq).2.symm.trans (hfiled.mem_iff.mp hq').2
  unfold hashAddToBkt
  rw [hl.tableAt hne, ok_bind]
  dsimp only
  rw [hbucket, ok_bind, hfirst, ok_bind, hsecond, ok_bind]
  split_ifs
  · obtain ⟨h', hrun, hfits⟩ := hashExpandBuckets_spec hfilled hne
    refine ⟨h', hrun, fun hfit => ?_⟩
    obtain ⟨_, _, hfilled'⟩ := hfits hfit
    exact .filled hne hfilled'
  · exact ⟨_, rfl, fun _ => .filled hne hfilled⟩

/-- Only the links of filed elements are looked at. -/
theorem Bucketed.sameLinks {buckets : List UtHashBucket} {n : Nat}
    (hb : Bucketed h buckets n chain) (hsame : ∀ i, ∀ q ∈ chain i, SameLinks h h' q) :
    Bucketed h' buckets n chain :=
  ⟨hb.length, fun i b hi => Linked.sameLinks (hb.linked i b hi) (hsame i), hb.count⟩

/-- The handles once `p` is behind `last`. -/
def appended (h : UtHash) (p last : Nat) (hh lh : UtHashHandle) : UtHash :=
  ((h.setHandle p hh).setHandle p { hh with next := none, prev := some last }).setHandle last
    { lh with next := some p }

section Appended

variable {last : Nat} {lh : UtHashHandle}

theorem handles_appended_new (hne : last ≠ p) :
    (h.appended p last hh lh).handles p = some { hh with next := none, prev := some last } := by
  simp [appended, hne.symm]

theorem handles_appended_last :
    (h.appended p last hh lh).handles last = some { lh with next := some p } := by
  simp [appended]

theorem handles_appended_old (hqp : q ≠ p) (hql : q ≠ last) :
    (h.appended p last hh lh).handles q = h.handles q := by
  simp [appended, hqp, hql]

/-- What is not `next` or `prev` of an old element stays. -/
theorem appended_bind {f : UtHashHandle → Option Nat} (hqp : q ≠ p)
    (hlh : h.handles last = some lh) (hf : f { lh with next := some p } = f lh) :
    ((h.appended p last hh lh).handles q).bind f = (h.handles q).bind f := by
  by_cases hql : q = last
  · rw [hql, handles_appended_last, hlh, Option.bind_some, Option.bind_some, hf]
  · rw [handles_appended_old hqp hql]

theorem hashAppendList_eq (hl : Listed h key items t) (hne : items ≠ [])
    (hlast : t.tail = some last) (hlp : last ≠ p) (hlh : h.handles last = some lh) :
    (h.setHandle p hh).hashAppendList p
      = .ok ((h.appended p last hh lh).setTable { t with tail := some p }) := by
  have hheadlive : ((h.setHandle p hh).handles (items.head hne)).isSome := by
    rw [handles_setHandle]
    split_ifs
    · rfl
    · exact (hl.live _).mpr (List.head_mem hne)
  have htable : (h.setHandle p hh).tableAt = .ok t :=
    tableAt_eq (hl.head_some hne) hheadlive hl.tbl
  have hself : (h.setHandle p hh).handles p = some hh := by simp
  have hlh' : ((h.setHandle p hh).setHandle p { hh with next := none, prev := some last }).handles
      last = some lh := by simpa [hlp] using hlh
  unfold hashAppendList
  rw [htable, ok_bind, modifyHandle_eq hself, ok_bind, hlast]
  dsimp only
  rw [modifyHandle_eq hlh']
  rfl

theorem isSome_appended (hlp : last ≠ p) (hlast : (h.handles last).isSome) :
    ((h.appended p last hh lh).handles q).isSome ↔ (h.handles q).isSome ∨ q = p := by
  by_cases hqp : q = p
  · simp [hqp, handles_appended_new hlp]
  · by_cases hql : q = last
    · simp [hql, handles_appended_last, hlast]
    · simp [hqp, handles_appended_old hqp hql]

theorem hasKey_appended (hlp : last ≠ p) (hlh : h.handles last = some lh)
    (hold : ∀ q qh, h.handles q = some qh → qh.HasKey (key q)) (hkey : hh.HasKey (key p))
    {qh : UtHashHandle} (hq : (h.appended p last hh lh).handles q = some qh) :
    qh.HasKey (key q) := by
  by_cases hqp : q = p
  · subst hqp
    cases (handles_appended_new hlp).symm.trans hq
    exact ⟨hkey.key, hkey.keylen, hkey.hashv⟩
  · by_cases hql : q = last
    · subst hql
      cases handles_appended_last.symm.trans hq
      have hkeylast := hold q lh hlh
      exact ⟨hkeylast.key, hkeylast.keylen, hkeylast.hashv⟩
    · exact hold q qh ((handles_appended_old hqp hql).symm.trans hq)

/-- The list of all elements ends with `p`. -/
theorem Listed.append (hl : Listed h key items t) (hne : items ≠ []) (hfresh : p ∉ items)
    (hlast : items.getLast? = some last) (hlp : last ≠ p) (hlh : h.handles last = some lh)
    (hkey : hh.HasKey (key p)) (hkeys : KeysDistinct key (items ++ [p])) :
    Listed ((h.appended p last hh lh).setTable
        { t with tail := some p, numItems := t.numItems + 1 }) key
      (items ++ [p]) { t with tail := some p, numItems := t.numItems + 1 } := by
  have hlive : ∀ q, ((h.appended p last hh lh).handles q).isSome ↔ q ∈ items ++ [p] := by
    intro q
    rw [isSome_appended hlp (by simp [hlh]), hl.live, List.mem_append, List.mem_singleton]
  refine ⟨?_, rfl, hlive, fun q qh hq => hasKey_appended hlp hlh hl.hasKey hkey hq, ?_, ?_,
    hkeys, ?_, hl.numBuckets, hl.log2⟩
  · rw [List.head?_append_of_ne_nil _ hne]
    exact hl.head
  · refine hl.app.concat hne ?_ ?_ ?_ ?_ ?_
    · show ((h.appended p last hh lh).handles p).bind _ = none
      rw [handles_appended_new hlp]
      rfl
    · show ((h.appended p last hh lh).handles p).bind _ = items.getLast?
      rw [handles_appended_new hlp, hlast]
      rfl
    · intro q hq
      cases hlast.symm.trans hq
      show ((h.appended p last hh lh).handles last).bind _ = some p
      rw [handles_appended_last]
      rfl
    · intro q hq hq'
      have hqp : q ≠ p := fun heq => hfresh (heq ▸ hq)
      have hql : q ≠ last := fun heq => hq' (heq ▸ hlast)
      show ((h.appended p last hh lh).handles q).bind _ = (h.handles q).bind _
      rw [handles_appended_old hqp hql]
    · intro q hq
      exact appended_bind (fun heq => hfresh (heq ▸ hq)) hlh rfl
  · simp
  · rw [ofNat_length_concat, ← hl.numItems]

end Appended

/-- An element goes behind the last one. Its handle is there, with its key in it. -/
theorem hashAppendList_spec (hf : Filled h key items t chain) (hne : items ≠ [])
    (hfresh : p ∉ items) (hkey : hh.HasKey (key p)) (hkeys : KeysDistinct key (items ++ [p])) :
    ∃ h', (h.setHandle p hh).hashAppendList p = .ok h' ∧
      h'.tableAt = .ok { t with tail := some p } ∧
      Listed (h'.setTable { t with tail := some p, numItems := t.numItems + 1 }) key
        (items ++ [p]) { t with tail := some p, numItems := t.numItems + 1 } ∧
      Bucketed h' t.buckets (2 ^ t.log2NumBuckets.toNat) chain := by
  have hlast : items.getLast? = some (items.getLast hne) := List.getLast?_eq_some_getLast hne
  have hlastmem := List.getLast_mem hne
  generalize items.getLast hne = last at hlast hlastmem
  have hlp : last ≠ p := fun heq => hfresh (heq ▸ hlastmem)
  obtain ⟨lh, hlh⟩ := Option.isSome_iff_exists.mp ((hf.live last).mpr hlastmem)
  have hlisted := hf.toListed.append hne hfresh hlast hlp hlh hkey hkeys
  refine ⟨_, hashAppendList_eq hf.toListed hne (hf.tail.trans hlast) hlp hlh, ?_, hlisted, ?_⟩
  · exact tableAt_eq (hf.toListed.head_some hne)
      ((hlisted.live _).mpr (List.mem_append_left _ (List.head_mem hne))) rfl
  · refine (hf.bucketed.sameLinks fun i q hq => ?_).setTable _
    have hqp : q ≠ p := fun heq => hfresh (heq ▸ (hf.filed.mem_iff.mp hq).1)
    exact ⟨appended_bind hqp hlh rfl, appended_bind hqp hlh rfl⟩

/-- A new element has a new key. -/
theorem KeysDistinct.concat (hkeys : KeysDistinct key items) (hnew : ∀ q ∈ items, key q ≠ key p) :
    KeysDistinct key (items ++ [p]) := by
  intro a ha b hb heq
  rcases List.mem_append.mp ha with ha | ha <;> rcases List.mem_append.mp hb with hb | hb
  · exact hkeys a ha b hb heq
  · rw [List.mem_singleton.mp hb] at heq
    exact absurd heq (hnew a ha)
  · rw [List.mem_singleton.mp ha] at heq
    exact absurd heq.symm (hnew b hb)
  · rw [List.mem_singleton.mp ha, List.mem_singleton.mp hb]

/-- `HASH_ADD` of an element under a key that is not in use. -/
theorem hashAdd_spec (hr : Represents h key items) (hnew : ∀ q ∈ items, key q ≠ key p) :
    ∃ h', h.hashAdd p (key p) = .ok h' ∧ (h'.Fits → Represents h' key (items ++ [p])) := by
  have hfresh : p ∉ items := fun hp => hnew p hp rfl
  unfold hashAdd
  dsimp only
  generalize hhandle : (UtHashHandle.mk none none none none (key p) KEYLEN (hashJen (key p))) = hh
  have hkey : hh.HasKey (key p) := hhandle ▸ ⟨rfl, rfl, rfl⟩
  cases hr with
  | empty head tbl handles =>
      -- A new table, with `p` as its only element.
      rw [show (h.setHandle p hh).head = none from head]
      dsimp only
      let h₁ : UtHash := { h.setHandle p hh with head := some p, tbl := some (hashMakeTable p) }
      let t : UtHashTable := { hashMakeTable p with numItems := 1 }
      have hself : h₁.handles p = some hh := if_pos rfl
      have hother : ∀ q, q ≠ p → h₁.handles q = none := fun q hq => (if_neg hq).trans (handles q)
      have hnext : h₁.appNext p = none := by
        rw [appNext_eq hself, ← hhandle]
      have hprev : h₁.appPrev p = none := by
        rw [appPrev_eq hself, ← hhandle]
      have hkeys : KeysDistinct key ([] ++ [p]) := KeysDistinct.concat (fun a ha => nomatch ha) hnew
      have hlisted : Listed (h₁.setTable t) key ([] ++ [p]) t := by
        refine ⟨rfl, rfl, fun q => ?_, fun q qh hq => ?_, ⟨rfl, hprev, hnext⟩, rfl,
          hkeys, rfl, rfl, (by decide : HASH_INITIAL_NUM_BUCKETS_LOG2.toNat ≤ 31)⟩
        · by_cases hq : q = p
          · subst hq
            simp [hself]
          · simp [hq, hother q hq]
        · by_cases hqp : q = p
          · subst hqp
            cases hself.symm.trans hq
            exact hkey
          · cases (hother q hqp).symm.trans hq
      have htable : h₁.tableAt = .ok (hashMakeTable p) := tableAt_eq rfl (by rw [hself]; rfl) rfl
      rw [pure_bind, htable, ok_bind, show (hashMakeTable p).numBuckets = t.numBuckets from rfl,
        hlisted.hashToBkt_eq]
      exact hashAddToBkt_spec hlisted (bucketed_zero _ _) (.nil _)
  | filled hne hf =>
      rename_i t chain
      have hhead : (h.setHandle p hh).head = some (items.head hne) := by
        rw [← List.head?_eq_some_head hne]
        exact hf.head
      obtain ⟨h₁, happend, htable, hlisted, hbucketed⟩ := hashAppendList_spec hf hne hfresh hkey
        (hf.keys.concat hnew)
      rw [hhead]
      show ∃ h', (UtHash.hashAppendList _ p >>= _) = .ok h' ∧ _
      rw [happend, ok_bind, htable, ok_bind, hf.toListed.hashToBkt_eq]
      exact hashAddToBkt_spec (t := { t with tail := some p, numItems := t.numItems + 1 }) hlisted
        (hbucketed.setTable _) hf.filed

/-! ### `HASH_FIND` -/

/-- The handle of another key is passed, since the key itself is compared as well. -/
theorem hashFindInBkt_spec {k : U32} {fuel : Nat} {before head : Option Nat} {l : List Nat}
    (hlinked : Linked h.linkNext h.linkPrev before head l none)
    (hlive : ∀ q ∈ l, (h.handles q).isSome)
    (hkeys : ∀ q hh, h.handles q = some hh → hh.HasKey (key q)) (hfuel : l.length ≤ fuel) :
    h.hashFindInBkt k (hashJen k) fuel head = .ok (l.find? fun q => key q = k) := by
  induction l generalizing fuel before head with
  | nil =>
      obtain rfl : head = none := hlinked
      cases fuel <;> rfl
  | cons q l ih =>
      obtain ⟨rfl, -, hrest⟩ := hlinked
      obtain ⟨hh, hq⟩ := Option.isSome_iff_exists.mp (hlive q List.mem_cons_self)
      have hkey := hkeys q hh hq
      rw [linkNext_eq hq] at hrest
      cases fuel with
      | zero => cases hfuel
      | succ fuel =>
          rw [hashFindInBkt, handleAt_eq_ok.mpr hq, ok_bind, hkey.key, hkey.keylen, hkey.hashv]
          by_cases hfound : key q = k
          · simp [hfound]
          · rw [if_neg fun hall => hfound hall.2.2, List.find?_cons_of_neg (by simpa using hfound)]
            exact ih hrest (fun r hr => hlive r (List.mem_cons_of_mem _ hr))
              (Nat.le_of_succ_le_succ hfuel)

/-- `HASH_FIND` finds the element with the key, if there is one. -/
theorem hashFind_spec (hr : Represents h key items) (k : U32) :
    h.hashFind k = .ok (items.find? fun q => key q = k) := by
  unfold hashFind
  cases hr with
  | empty head tbl handles => rw [head]; rfl
  | filled hne hf =>
      rename_i t chain
      -- The bucket of a key, of which `bucketIndex` is the one of an element's key.
      let place : U32 → Nat := fun k => (hashJen k).toNat % 2 ^ t.log2NumBuckets.toNat
      have hplace : ∀ a ∈ items, bucketIndex key t.log2NumBuckets.toNat a = place (key a) :=
        fun _ _ => rfl
      obtain ⟨b, hbucket, hb⟩ := hf.bucketed.bucketAt (Nat.mod_lt (hashJen k).toNat (Nat.two_pow_pos _))
      rw [hf.toListed.head_some hne]
      dsimp only
      rw [hf.toListed.tableAt hne, ok_bind, hf.toListed.hashToBkt_eq, hbucket, ok_bind,
        hashFindInBkt_spec (hf.bucketed.linked _ b hb)
          (fun q hq => (hf.live q).mpr (hf.filed.mem_iff.mp hq).1) hf.hasKey
          (hf.chain_length_le _)]
      exact congrArg Except.ok (hf.filed.find? hplace hf.keys k)

end Listed

/-! ### `HASH_DEL` -/

/-- One handle is changed, if the pointer is not `NULL`. -/
def mapHandle (h : UtHash) (p : Option Nat) (f : UtHashHandle → UtHashHandle) : UtHash :=
  { h with handles := fun q => (h.handles q).map fun hh => if p = some q then f hh else hh }

theorem modifyHandle?_eq {p : Option Nat} (hp : ∀ q, p = some q → (h.handles q).isSome)
    (f : UtHashHandle → UtHashHandle) : h.modifyHandle? p f = .ok (h.mapHandle p f) := by
  cases p with
  | none => simp [modifyHandle?, mapHandle]
  | some p =>
      obtain ⟨hh, hhandle⟩ := Option.isSome_iff_exists.mp (hp p rfl)
      rw [modifyHandle?, modifyHandle_eq hhandle, setHandle, mapHandle]
      congr 2
      funext q
      by_cases hqp : q = p
      · subst hqp
        simp [hhandle]
      · simp [hqp, Ne.symm hqp]

theorem isSome_mapHandle (h : UtHash) (p : Option Nat) (f : UtHashHandle → UtHashHandle) (q : Nat) :
    ((h.mapHandle p f).handles q).isSome = (h.handles q).isSome := Option.isSome_map

/-- The neighbours of the handle `del`, in both of its lists, are told about each other. -/
def unlinkHandle (del : UtHashHandle) (q : Nat) (hh : UtHashHandle) : UtHashHandle :=
  { hh with
    prev := if del.next = some q then del.prev else hh.prev
    next := if del.prev = some q then del.next else hh.next
    hhPrev := if del.hhNext = some q then del.hhPrev else hh.hhPrev
    hhNext := if del.hhPrev = some q then del.hhNext else hh.hhNext }

theorem hashDelInBkt_eq {t : UtHashTable} {b : UtHashBucket} {bkt : Nat}
    (htable : h.tableAt = .ok t) (hbucket : bucketAt t.buckets bkt = .ok b)
    (hprev : ∀ q, hh.hhPrev = some q → (h.handles q).isSome)
    (hnext : ∀ q, hh.hhNext = some q → (h.handles q).isSome) :
    h.hashDelInBkt bkt p hh = .ok (((h.setTable { t with buckets := t.buckets.set bkt { b with
        count := b.count - 1
        hhHead := if b.hhHead = some p then hh.hhNext else b.hhHead } }).mapHandle hh.hhPrev
      fun qh => { qh with hhNext := hh.hhNext }).mapHandle hh.hhNext
      fun qh => { qh with hhPrev := hh.hhPrev }) := by
  unfold hashDelInBkt
  rw [htable, ok_bind]
  dsimp only
  rw [hbucket, ok_bind, modifyHandle?_eq (h := h.setTable _) hprev, ok_bind]
  refine modifyHandle?_eq (fun q hq => ?_) _
  rw [isSome_mapHandle]
  exact hnext q hq

/-- What is behind the deleted element becomes the `next` of the one before it, or the head, and
the deletion goes on. -/
theorem unlinkFirst_eq (hlive : ∀ q, hh.prev = some q → (h.handles q).isSome)
    (k : UtHash → Except Fault UtHash) :
    (match hh.prev with
      | none => (pure { h with head := hh.next } : Except Fault UtHash) >>= k
      | some q => h.modifyHandle q (fun qh => { qh with next := hh.next }) >>= k) =
      k { h.mapHandle hh.prev fun qh => { qh with next := hh.next } with
        head := if hh.prev = none then hh.next else h.head } := by
  have hmodify := modifyHandle?_eq hlive fun qh => { qh with next := hh.next }
  cases hprev : hh.prev with
  | none =>
      rw [pure_bind]
      simp [mapHandle]
  | some r =>
      rw [hprev] at hmodify
      refine (congrArg (· >>= k) hmodify).trans (congrArg k ?_)
      simp [mapHandle]

/-- `HASH_DEL` of an element that is not the last one left, if its neighbours are there. -/
theorem hashDelete_eq {t : UtHashTable} {b : UtHashBucket} (hp : h.handles p = some hh)
    (hhead : h.head = some q) (hq : (h.handles q).isSome) (ht : h.tbl = some t)
    (hne : ¬ (hh.prev = none ∧ hh.next = none))
    (hbucket : bucketAt t.buckets (hashToBkt hh.hashv t.numBuckets) = .ok b)
    (hlive : ∀ q, hh.prev = some q ∨ hh.next = some q ∨ hh.hhPrev = some q ∨ hh.hhNext = some q →
      (h.handles q).isSome) :
    ∃ h', h.hashDelete p = .ok h' ∧
      h'.head = (if hh.prev = none then hh.next else h.head) ∧
      h'.tbl = some { t with
        buckets := t.buckets.set (hashToBkt hh.hashv t.numBuckets) { b with
          count := b.count - 1
          hhHead := if b.hhHead = some p then hh.hhNext else b.hhHead }
        tail := if t.tail = some p then hh.prev else t.tail
        numItems := t.numItems - 1 } ∧
      ∀ r, h'.handles r = (h.handles r).map (unlinkHandle hh r) := by
  let t₁ : UtHashTable := { t with tail := if t.tail = some p then hh.prev else t.tail }
  let h₁ : UtHash := { (h.setTable t₁).mapHandle hh.prev fun qh => { qh with next := hh.next } with
    head := if hh.prev = none then hh.next else h.head }
  let h₂ := h₁.mapHandle hh.next fun qh => { qh with prev := hh.prev }
  have hlive₁ : ∀ r, (h₁.handles r).isSome = (h.handles r).isSome := fun r => isSome_mapHandle _ _ _ _
  have hlive₂ : ∀ r, (h₂.handles r).isSome = (h.handles r).isSome := fun r =>
    (isSome_mapHandle _ _ _ _).trans (hlive₁ r)
  have hsecond : h₁.modifyHandle? hh.next (fun qh => { qh with prev := hh.prev }) = .ok h₂ :=
    modifyHandle?_eq (fun r hr => (hlive₁ r).trans (hlive r (.inr (.inl hr)))) _
  -- The new head is there, and it is in the list.
  obtain ⟨r, hhead', hr⟩ : ∃ r, h₂.head = some r ∧ (h.handles r).isSome := by
    show ∃ r, (if hh.prev = none then hh.next else h.head) = some r ∧ _
    split_ifs with hprev
    · obtain ⟨r, hr⟩ := Option.ne_none_iff_exists'.mp fun hnext => hne ⟨hprev, hnext⟩
      exact ⟨r, hr, hlive r (.inr (.inl hr))⟩
    · exact ⟨q, hhead, hq⟩
  have htable₂ : h₂.tableAt = .ok t₁ := tableAt_eq hhead' ((hlive₂ r).trans hr) rfl
  let t₂ : UtHashTable := { t₁ with
    buckets := t.buckets.set (hashToBkt hh.hashv t.numBuckets) { b with
      count := b.count - 1
      hhHead := if b.hhHead = some p then hh.hhNext else b.hhHead } }
  let h₃ := ((h₂.setTable t₂).mapHandle hh.hhPrev fun qh => { qh with hhNext := hh.hhNext }).mapHandle
    hh.hhNext fun qh => { qh with hhPrev := hh.hhPrev }
  have hbkt : h₂.hashDelInBkt (hashToBkt hh.hashv t.numBuckets) p hh = .ok h₃ :=
    hashDelInBkt_eq htable₂ hbucket
      (fun r hr => (hlive₂ r).trans (hlive r (.inr (.inr (.inl hr)))))
      (fun r hr => (hlive₂ r).trans (hlive r (.inr (.inr (.inr hr)))))
  have hlive₃ : (h₃.handles r).isSome := by
    rw [isSome_mapHandle, isSome_mapHandle]
    exact (hlive₂ r).trans hr
  have htable₃ : h₃.tableAt = .ok t₂ := tableAt_eq hhead' hlive₃ rfl
  refine ⟨h₃.setTable { t₂ with numItems := t.numItems - 1 }, ?_, rfl, rfl, fun r => ?_⟩
  · unfold hashDelete
    rw [handleAt_eq_ok.mpr hp, ok_bind, tableAt_eq hhead hq ht, ok_bind, if_neg hne]
    refine (unlinkFirst_eq (h := h.setTable t₁) (fun r hr => hlive r (.inl hr)) _).trans ?_
    show (h₁.modifyHandle? hh.next _ >>= _) = _
    rw [hsecond, ok_bind, hbkt, ok_bind, htable₃, ok_bind]
    rfl
  · show (((((h.handles r).map _).map _).map _).map _) = _
    cases h.handles r with
    | none => rfl
    | some qh =>
        simp only [Option.map_some, unlinkHandle]
        split_ifs <;> rfl

theorem handles_free_self (h : UtHash) (p : Nat) : (h.free p).handles p = none := if_pos rfl

theorem handles_free_of_ne (hq : q ≠ p) : (h.free p).handles q = h.handles q := if_neg hq

/-- The pointers of the handles that are left, after the one of `p` is unlinked and freed. -/
theorem links_unlinked (hp : h.handles p = some hh)
    (hhandles : ∀ r, h'.handles r = (h.handles r).map (unlinkHandle hh r)) (hq : q ≠ p)
    (hlive : (h.handles q).isSome) :
    (h'.free p).appNext q = (if h.appPrev p = some q then h.appNext p else h.appNext q) ∧
    (h'.free p).appPrev q = (if h.appNext p = some q then h.appPrev p else h.appPrev q) ∧
    (h'.free p).linkNext q = (if h.linkPrev p = some q then h.linkNext p else h.linkNext q) ∧
    (h'.free p).linkPrev q = (if h.linkNext p = some q then h.linkPrev p else h.linkPrev q) := by
  obtain ⟨qh, hqh⟩ := Option.isSome_iff_exists.mp hlive
  have hfree : (h'.free p).handles q = some (unlinkHandle hh q qh) := by
    rw [handles_free_of_ne hq, hhandles, hqh]
    rfl
  simp only [appNext, appPrev, linkNext, linkPrev, hfree, hp, hqh, Option.bind_some]
  exact ⟨rfl, rfl, rfl, rfl⟩

section Delete

variable {key : Nat → U32} {items : List Nat} {t : UtHashTable} {chain : Nat → List Nat}

/-- What is left of the list of all elements. -/
theorem Listed.erase (hl : Listed h key items t) (hp : h.handles p = some hh) (hmem : p ∈ items)
    (hhead : h'.head = if hh.prev = none then hh.next else h.head)
    (hhandles : ∀ r, h'.handles r = (h.handles r).map (unlinkHandle hh r)) {t' : UtHashTable}
    (htbl : h'.tbl = some t') (htail : t'.tail = if t.tail = some p then hh.prev else t.tail)
    (hitems : t'.numItems = t.numItems - 1)
    (hbuckets : t'.numBuckets = BitVec.ofNat 32 (2 ^ t'.log2NumBuckets.toNat))
    (hlog : t'.log2NumBuckets.toNat ≤ 31) :
    Listed (h'.free p) key (items.erase p) t' := by
  have hnodup := hl.app.nodup
  have hprev := appPrev_eq hp
  have hnext := appNext_eq hp
  have hlinks := fun q (hq : q ∈ items) (hqp : q ≠ p) =>
    links_unlinked hp hhandles hqp ((hl.live q).mpr hq)
  have happ := hl.app.erase hmem (fun q hq hqp => (hlinks q hq hqp).1)
    (fun q hq hqp => (hlinks q hq hqp).2.1)
  rw [hprev, hnext, ← hhead] at happ
  refine ⟨?_, htbl, fun q => ?_, fun q qh hq => ?_, happ, ?_, ?_, ?_, hbuckets, hlog⟩
  · exact happ.head_eq.trans Option.or_none
  · rw [hnodup.mem_erase_iff]
    by_cases hqp : q = p
    · subst hqp
      simp [handles_free_self]
    · rw [handles_free_of_ne hqp, hhandles, Option.isSome_map, hl.live]
      simp [hqp]
  · have hqp : q ≠ p := fun heq => by
      rw [heq, handles_free_self] at hq
      cases hq
    rw [handles_free_of_ne hqp, hhandles] at hq
    obtain ⟨qh₀, hqh₀, rfl⟩ := Option.map_eq_some_iff.mp hq
    have hkey := hl.hasKey q qh₀ hqh₀
    exact ⟨hkey.key, hkey.keylen, hkey.hashv⟩
  · rw [htail, hl.tail, ← hprev]
    obtain ⟨l₁, l₂, rfl⟩ := List.append_of_mem hmem
    have hlast := hl.app.getLast?_eq_some_iff hmem
    rw [hl.app.neighbours.2] at hlast
    rw [hl.app.neighbours.1, hl.app.erase_eq]
    cases l₂ with
    | nil => simp
    | cons q l₂ =>
        rw [if_neg (hlast.not.mpr (by simp)), List.getLast?_append_cons, List.getLast?_append_cons,
          List.getLast?_cons_cons]
  · exact fun a ha b hb => hl.keys a (List.mem_of_mem_erase ha) b (List.mem_of_mem_erase hb)
  · rw [hitems, hl.numItems, ofNat_length_erase hmem]

/-- What is left of the buckets. -/
theorem Bucketed.erase (hf : Filled h key items t chain) (hp : h.handles p = some hh)
    (hhandles : ∀ r, h'.handles r = (h.handles r).map (unlinkHandle hh r)) {b : UtHashBucket}
    (hb : t.buckets[bucketIndex key t.log2NumBuckets.toNat p]? = some b) :
    Bucketed (h'.free p) (t.buckets.set (bucketIndex key t.log2NumBuckets.toNat p) { b with
        count := b.count - 1
        hhHead := if b.hhHead = some p then hh.hhNext else b.hhHead })
      (2 ^ t.log2NumBuckets.toNat) fun i => (chain i).erase p := by
  have hmem : p ∈ items := (hf.live p).mp (by rw [hp]; rfl)
  have hchain : p ∈ chain (bucketIndex key t.log2NumBuckets.toNat p) := hf.filed.mem_iff.mpr ⟨hmem, rfl⟩
  have hother : ∀ j, j ≠ bucketIndex key t.log2NumBuckets.toNat p → p ∉ chain j := fun j hj hp' =>
    hj (hf.filed.mem_iff.mp hp').2.symm
  have hlinked := hf.bucketed.linked _ b hb
  have hprev := linkPrev_eq hp
  have hnext := linkNext_eq hp
  have hlinks := fun q i (hq : q ∈ chain i) (hqp : q ≠ p) =>
    (links_unlinked hp hhandles hqp ((hf.live q).mpr (hf.filed.mem_iff.mp hq).1)).2.2
  refine hf.bucketed.set ?_ ?_ (fun j hj => List.erase_of_not_mem (hother j hj)) fun j hj q hq => ?_
  · have herase := hlinked.erase hchain (fun q hq hqp => (hlinks q _ hq hqp).1)
      (fun q hq hqp => (hlinks q _ hq hqp).2)
    rw [hnext, ← if_congr (hlinked.head_eq_some_iff hchain) rfl rfl] at herase
    exact herase
  · rw [ofNat_length_erase hchain, ← hf.bucketed.count _ b hb]
  · -- The neighbours of `p` are in the bucket of `p`.
    have hqp : q ≠ p := fun heq => hother j hj (heq ▸ hq)
    have hapart : q ∉ chain (bucketIndex key t.log2NumBuckets.toNat p) := fun hq' =>
      hj ((hf.filed.mem_iff.mp hq).2.symm.trans (hf.filed.mem_iff.mp hq').2)
    obtain ⟨hnext', hprev'⟩ := hlinks q j hq hqp
    rw [if_neg fun heq => hapart (hlinked.mem_of_prev hchain heq)] at hnext'
    rw [if_neg fun heq => hapart (hlinked.mem_of_next hchain heq)] at hprev'
    exact ⟨hnext', hprev'⟩

/-- `HASH_DEL` and `free` of an element of the table. -/
theorem hashDelete_spec (hr : Represents h key items) (hmem : p ∈ items) :
    ∃ h', h.hashDelete p = .ok h' ∧ Represents (h'.free p) key (items.erase p) := by
  cases hr with
  | empty => cases hmem
  | filled hne hf =>
      rename_i t chain
      obtain ⟨hh, hp⟩ := Option.isSome_iff_exists.mp ((hf.live p).mpr hmem)
      have hprev := appPrev_eq hp
      have hnext := appNext_eq hp
      have htable := hf.toListed.tableAt hne
      have halone := hf.app.erase_eq_nil_iff hmem
      rw [hprev, hnext] at halone
      by_cases hlast : hh.prev = none ∧ hh.next = none
      · -- The last element: the table goes with it.
        have hnil := halone.mpr hlast
        refine ⟨{ h with head := none, tbl := none }, ?_, ?_⟩
        · rw [hashDelete, handleAt_eq_ok.mpr hp, ok_bind, htable, ok_bind, if_pos hlast]
          rfl
        · rw [hnil]
          refine .empty rfl rfl fun q => ?_
          by_cases hqp : q = p
          · rw [hqp, handles_free_self]
          · have hq : q ∉ items := fun hq => by
              have herase := hf.app.nodup.mem_erase_iff.mpr ⟨hqp, hq⟩
              rw [hnil] at herase
              cases herase
            rw [handles_free_of_ne hqp]
            simpa using (hf.live q).not.mpr hq
      · obtain ⟨b, hbucket, hb⟩ := hf.bucketed.bucketAt (bucketIndex_lt key _ p)
        have hbkt : hashToBkt hh.hashv t.numBuckets = bucketIndex key t.log2NumBuckets.toNat p := by
          rw [(hf.hasKey p hh hp).hashv]
          exact hf.toListed.hashToBkt_eq _
        have hchain : p ∈ chain (bucketIndex key t.log2NumBuckets.toNat p) :=
          hf.filed.mem_iff.mpr ⟨hmem, rfl⟩
        have hlinked := hf.bucketed.linked _ b hb
        have hlive : ∀ q, hh.prev = some q ∨ hh.next = some q ∨ hh.hhPrev = some q ∨
            hh.hhNext = some q → (h.handles q).isSome := by
          intro q hq
          rw [hf.live]
          rcases hq with hq | hq | hq | hq
          · exact hf.app.mem_of_prev hmem (hprev.trans hq)
          · exact hf.app.mem_of_next hmem (hnext.trans hq)
          · exact (hf.filed.mem_iff.mp
              (hlinked.mem_of_prev hchain ((linkPrev_eq hp).trans hq))).1
          · exact (hf.filed.mem_iff.mp
              (hlinked.mem_of_next hchain ((linkNext_eq hp).trans hq))).1
        rw [← hbkt] at hbucket
        obtain ⟨h', hrun, hhead', htbl, hhandles⟩ := hashDelete_eq hp (hf.toListed.head_some hne)
          ((hf.live _).mpr (List.head_mem hne)) hf.tbl hlast hbucket hlive
        have hlisted := hf.toListed.erase hp hmem hhead' hhandles htbl rfl rfl hf.numBuckets
          hf.log2
        have hbucketed := Bucketed.erase hf hp hhandles hb
        rw [← hbkt] at hbucketed
        exact ⟨h', hrun, .filled (fun hnil => hlast (halone.mp hnil))
          ⟨hlisted, hbucketed, hf.filed.erase hf.app.nodup p⟩⟩

/-! ### `HASH_ITER` -/

/-- The element behind the first one. -/
theorem Represents.nextOf {rest : List Nat} (hr : Represents h key (p :: rest)) :
    h.nextOf (some p) = .ok rest.head? := by
  cases hr with
  | filled hne hf =>
      obtain ⟨hh, hp⟩ := Option.isSome_iff_exists.mp ((hf.live p).mpr List.mem_cons_self)
      have hnext : h.appNext p = rest.head? := by
        have happ := hf.app.2.2
        exact happ.head_eq.trans Option.or_none
      rw [UtHash.nextOf, handleAt_eq_ok.mpr hp, ok_bind, ← hnext, appNext, hp]
      rfl

/-- What is left when there is nothing left. -/
theorem Represents.eq_empty (hr : Represents h key []) : h = UtHash.empty := by
  cases hr with
  | empty head tbl handles =>
      cases h
      cases head
      cases tbl
      exact congrArg (UtHash.mk none none) (funext handles)
  | filled hne hf => exact absurd rfl hne

/-- The loop frees the elements one after the other. The pointer to the next one is read before
the element is freed. -/
theorem freeLoop_spec {fuel : Nat} {freed : List Nat} {b t : Option Nat}
    (hr : Represents h key items) (hb : b = items.head?) (ht : h.nextOf b = .ok t)
    (hfuel : items.length ≤ fuel) :
    freeLoop fuel b t h freed = .ok (.empty, freed ++ items) := by
  induction items generalizing fuel freed b t h with
  | nil =>
      obtain rfl : b = none := hb
      rw [hr.eq_empty, List.append_nil]
      cases fuel <;> rfl
  | cons p rest ih =>
      obtain rfl : b = some p := hb
      obtain rfl : rest.head? = t := Except.ok.inj (hr.nextOf.symm.trans ht)
      obtain ⟨h', hrun, hr'⟩ := hashDelete_spec hr List.mem_cons_self
      rw [List.erase_cons_head] at hr'
      cases fuel with
      | zero => cases hfuel
      | succ fuel =>
          obtain ⟨t, ht⟩ : ∃ t, (h'.free p).nextOf rest.head? = .ok t := by
            cases rest with
            | nil => exact ⟨none, rfl⟩
            | cons q rest => exact ⟨_, hr'.nextOf⟩
          rw [freeLoop, hrun, ok_bind]
          dsimp only
          rw [ht, ok_bind, ih hr' rfl ht (Nat.le_of_succ_le_succ hfuel), List.append_assoc]
          rfl

/-- The loop at the end frees every element once, and the table with the last one. -/
theorem freeBlocks_spec (hr : Represents h key items) : h.freeBlocks = .ok (.empty, items) := by
  have hhead : h.head = items.head? := by
    cases hr with
    | empty head => exact head
    | filled hne hf => exact hf.head
  have hfuel : items.length ≤ handleFuel := by
    cases hr with
    | empty => exact Nat.zero_le _
    | filled hne hf => exact hf.toListed.length_le
  obtain ⟨t, ht⟩ : ∃ t, h.nextOf h.head = .ok t := by
    rw [hhead]
    cases items with
    | nil => exact ⟨none, rfl⟩
    | cons p rest => exact ⟨_, hr.nextOf⟩
  rw [freeBlocks, ht, ok_bind, freeLoop_spec hr hhead ht hfuel, List.nil_append]

end Delete

/-! ### `HASH_FSCK` -/

section Fsck

variable {key : Nat → U32} {items : List Nat}

/-- A loop of the check passes along a linked list, and counts it. -/
theorem fsckChain_spec {next prev : UtHashHandle → Option Nat} {fuel : Nat}
    {back head : Option Nat} {l : List Nat}
    (hlinked : Linked (fun q => (h.handles q).bind next) (fun q => (h.handles q).bind prev)
      back head l none)
    (hlive : ∀ q ∈ l, (h.handles q).isSome) (hfuel : l.length ≤ fuel) :
    h.fsckChain next prev fuel back head = .ok (BitVec.ofNat 32 l.length) := by
  induction l generalizing fuel back head with
  | nil =>
      obtain rfl : head = none := hlinked
      cases fuel <;> rfl
  | cons q l ih =>
      obtain ⟨rfl, hback, hrest⟩ := hlinked
      obtain ⟨hh, hq⟩ := Option.isSome_iff_exists.mp (hlive q List.mem_cons_self)
      simp only [hq, Option.bind_some] at hback hrest
      cases fuel with
      | zero => cases hfuel
      | succ fuel =>
          rw [fsckChain, handleAt_eq_ok.mpr hq, ok_bind, if_neg (by simp [hback]),
            ih hrest (fun r hr => hlive r (List.mem_cons_of_mem _ hr))
              (Nat.le_of_succ_le_succ hfuel), ok_bind, List.length_cons, BitVec.ofNat_add]
          rfl

/-- The buckets `bkts` hold as many elements as they say. -/
theorem fsckBuckets_spec {t : UtHashTable} {chain : Nat → List Nat}
    (hf : Filled h key items t chain) (bkts : List Nat) (count : U32)
    (hlt : ∀ i ∈ bkts, i < 2 ^ t.log2NumBuckets.toNat) :
    bkts.foldlM (fun count bkt => do
      let b ← bucketAt t.buckets bkt
      let bktCount ← fsckChain h UtHashHandle.hhNext UtHashHandle.hhPrev handleFuel none b.hhHead
      if b.count ≠ bktCount then .error .abort else return count + bktCount) count
    = (.ok (count + BitVec.ofNat 32 (bkts.map fun i => (chain i).length).sum) : Except Fault U32) := by
  induction bkts generalizing count with
  | nil => exact congrArg Except.ok (BitVec.add_zero count).symm
  | cons i bkts ih =>
      obtain ⟨b, hbucket, hb⟩ := hf.bucketed.bucketAt (hlt i List.mem_cons_self)
      have hchain := fsckChain_spec (hf.bucketed.linked i b hb)
        (fun q hq => (hf.live q).mpr (hf.filed.mem_iff.mp hq).1)
        (hf.chain_length_le i)
      rw [List.foldlM_cons, hbucket, ok_bind, hchain, ok_bind,
        if_neg (by simp [hf.bucketed.count i b hb]), pure_bind,
        ih _ fun j hj => hlt j (List.mem_cons_of_mem _ hj), List.map_cons, List.sum_cons,
        BitVec.ofNat_add, BitVec.add_assoc]

/-- The check finds nothing to complain about. -/
theorem hashFsck_spec (hr : Represents h key items) : h.hashFsck = .ok () := by
  unfold hashFsck
  cases hr with
  | empty head tbl handles => rw [head]
  | filled hne hf =>
      rename_i t chain
      have happ := fsckChain_spec hf.app (fun q hq => (hf.live q).mpr hq)
        hf.toListed.length_le
      rw [hf.toListed.head_some hne] at happ ⊢
      dsimp only
      rw [hf.toListed.tableAt hne, ok_bind, hf.toListed.toNat_numBuckets,
        fsckBuckets_spec hf _ 0 fun i hi => List.mem_range.mp hi,
        ok_bind, hf.filed.sum_length fun p _ => bucketIndex_lt key _ p,
        show (0 : U32) + _ = _ from BitVec.zero_add _, if_neg (by simp [hf.numItems]), happ,
        ok_bind, if_neg (by simp [hf.numItems])]
      rfl

end Fsck

/-! ### Runs of operations -/

/-- What a program does with elements: `HASH_ADD`, or `HASH_DEL` and `free`. -/
inductive HashOp
  | add (p : Nat)
  | delete (p : Nat)
  deriving DecidableEq, Repr

namespace HashOp

def run (key : Nat → U32) (h : UtHash) : HashOp → Except Fault UtHash
  | add p => h.hashAdd p (key p)
  | delete p => do
      let h ← h.hashDelete p
      return h.free p

/-- The elements afterwards, in the order they were added. -/
def apply (items : List Nat) : HashOp → List Nat
  | add p => items ++ [p]
  | delete p => items.erase p

/-- An element is added under a key that is not in use, and deleted while it is there. -/
def Legal (key : Nat → U32) (items : List Nat) : HashOp → Prop
  | add p => ∀ q ∈ items, key q ≠ key p
  | delete p => p ∈ items

instance (key : Nat → U32) (items : List Nat) : (op : HashOp) → Decidable (op.Legal key items)
  | add p => inferInstanceAs (Decidable (∀ q ∈ items, key q ≠ key p))
  | delete p => inferInstanceAs (Decidable (p ∈ items))

end HashOp

/-- Every operation is legal when its turn comes. -/
def LegalRun (key : Nat → U32) : List Nat → List HashOp → Prop
  | _, [] => True
  | items, op :: ops => op.Legal key items ∧ LegalRun key (op.apply items) ops

instance LegalRun.decidable (key : Nat → U32) :
    (items : List Nat) → (ops : List HashOp) → Decidable (LegalRun key items ops)
  | _, [] => .isTrue trivial
  | items, op :: ops =>
      have := LegalRun.decidable key (op.apply items) ops
      inferInstanceAs (Decidable (op.Legal key items ∧ LegalRun key (op.apply items) ops))

/-- The table fits after every operation. -/
def FitsRun (key : Nat → U32) : UtHash → List HashOp → Prop
  | _, [] => True
  | h, op :: ops =>
      match op.run key h with
      | .error _ => True
      | .ok h' => h'.Fits ∧ FitsRun key h' ops

instance FitsRun.decidable (key : Nat → U32) :
    (h : UtHash) → (ops : List HashOp) → Decidable (FitsRun key h ops)
  | _, [] => .isTrue trivial
  | h, op :: ops =>
      match hrun : op.run key h with
      | .error _ => .isTrue (by simp only [FitsRun, hrun])
      | .ok h' =>
          have := FitsRun.decidable key h' ops
          decidable_of_iff (h'.Fits ∧ FitsRun key h' ops) (by simp only [FitsRun, hrun])

section Runs

variable {key : Nat → U32} {items : List Nat}

/-- Only the keys of the elements matter. -/
theorem Represents.congr {key' : Nat → U32} (hr : Represents h key items)
    (hkey : ∀ p ∈ items, key' p = key p) : Represents h key' items := by
  cases hr with
  | empty head tbl handles => exact .empty head tbl handles
  | filled hne hf =>
      rename_i t chain
      have hkeys : KeysDistinct key' items := by
        intro a ha b hb heq
        rw [hkey a ha, hkey b hb] at heq
        exact hf.keys a ha b hb heq
      refine .filled hne ⟨⟨hf.head, hf.tbl, hf.live, fun p hh hp => ?_, hf.app, hf.tail, hkeys,
        hf.numItems, hf.numBuckets, hf.log2⟩, hf.bucketed, hf.filed.congr fun p hp => ?_⟩
      · rw [hkey p ((hf.live p).mp (by rw [hp]; rfl))]
        exact hf.hasKey p hh hp
      · rw [bucketIndex, hkey p hp]
        rfl

/-- One operation. -/
theorem hashOp_spec {op : HashOp} (hr : Represents h key items) (hlegal : op.Legal key items) :
    ∃ h', op.run key h = .ok h' ∧ (h'.Fits → Represents h' key (op.apply items)) := by
  cases op with
  | add p => exact hashAdd_spec hr hlegal
  | delete p =>
      obtain ⟨h', hrun, hr'⟩ := hashDelete_spec hr hlegal
      refine ⟨h'.free p, ?_, fun _ => hr'⟩
      rw [HashOp.run, hrun]
      rfl

/-- A run of operations. -/
theorem hashOps_spec {ops : List HashOp} (hr : Represents h key items)
    (hlegal : LegalRun key items ops) (hfits : FitsRun key h ops) :
    ∃ h', ops.foldlM (HashOp.run key) h = .ok h' ∧
      Represents h' key (ops.foldl HashOp.apply items) := by
  induction ops generalizing h items with
  | nil => exact ⟨h, rfl, hr⟩
  | cons op ops ih =>
      obtain ⟨h₁, hrun, hr₁⟩ := hashOp_spec hr hlegal.1
      simp only [FitsRun, hrun] at hfits
      obtain ⟨h', hrest, hfinal⟩ := ih (hr₁ hfits.1) hlegal.2 hfits.2
      refine ⟨h', ?_, hfinal⟩
      rw [List.foldlM_cons, hrun]
      exact hrest

/-- The table is a map, over every run of operations from the empty table on in which it does
not come to more than `2 ^ 31` buckets: no operation follows a pointer that is `NULL` or dangling,
the debug check passes afterwards, a search finds the element with the key or nothing, and the
loop at the end frees the elements that are left, each once, in the order they were added. -/
theorem uthash_refines_map (key : Nat → U32) (ops : List HashOp) (hlegal : LegalRun key [] ops)
    (hfits : FitsRun key .empty ops) :
    ∃ h, ops.foldlM (HashOp.run key) UtHash.empty = .ok h ∧
      h.hashFsck = .ok () ∧
      (∀ k, h.hashFind k = .ok ((ops.foldl HashOp.apply []).find? fun p => key p = k)) ∧
      h.freeBlocks = .ok (.empty, ops.foldl HashOp.apply []) := by
  have hstart : Represents .empty key [] := .empty rfl rfl fun _ => rfl
  obtain ⟨h, hrun, hr⟩ := hashOps_spec hstart hlegal hfits
  exact ⟨h, hrun, hashFsck_spec hr, hashFind_spec hr, freeBlocks_spec hr⟩

/-- Ten keys that share a bucket among 32. -/
def crowdedKeys : List U32 := [16, 64, 200, 384, 464, 480, 556, 664, 668, 904]

/-- The tenth addition doubles the buckets. The second element is deleted then, and comes back at
the end. -/
def crowdedOps : List HashOp :=
  [.add 0, .add 1, .add 2, .add 3, .add 4, .add 5, .add 6, .add 7, .add 8, .add 9, .delete 1,
    .add 1]

theorem uthash_refines_map_crowded :
    ∃ h, crowdedOps.foldlM (HashOp.run fun p => crowdedKeys.getD p 0) UtHash.empty = .ok h ∧
      h.tbl.map UtHashTable.numBuckets = some 64 ∧ h.tbl.map UtHashTable.numItems = some 10 ∧
      h.hashFsck = .ok () ∧ h.hashFind 64 = .ok (some 1) ∧ h.hashFind 12 = .ok none ∧
      h.freeBlocks = .ok (.empty, [0, 2, 3, 4, 5, 6, 7, 8, 9, 1]) := by
  obtain ⟨h, hrun, hfsck, hfind, hfree⟩ := uthash_refines_map (fun p => crowdedKeys.getD p 0)
    crowdedOps (by decide) (by decide +kernel)
  obtain ⟨h', hrun', htable⟩ : ∃ h',
      crowdedOps.foldlM (HashOp.run fun p => crowdedKeys.getD p 0) UtHash.empty = .ok h' ∧
      decide (h'.tbl.map UtHashTable.numBuckets = some 64 ∧
        h'.tbl.map UtHashTable.numItems = some 10) = true :=
    okWith_eq_true.mp (by decide +kernel)
  cases hrun.symm.trans hrun'
  obtain ⟨hbuckets, hitems⟩ := of_decide_eq_true htable
  exact ⟨h, hrun, hbuckets, hitems, hfsck, hfind 64, hfind 12, hfree⟩

end Runs

end UtHash

end MipsEngines
