import MipsEngines.Lib.Except
import MipsEngines.Model.Blocked

/-!
# `MipsEngines.Proofs.Decode`: what `decode_block` produces

A block is determined by its address and its code, the list of words with their
handlers: `blockOf`. `decodeBlock_eq_ok` says which code: the words in memory from
the program counter on (`CodeAt`), up to the first word that is not a control
transfer and has one before it (`Chain`). The two fix the code (`Chain.unique`), so
decoding the same words again gives the same block.
-/

set_option autoImplicit false

namespace MipsEngines

open Lib

/-- Instruction words, each with its handler. -/
abbrev Code := List (U32 × Instr)

/-- The words of `code` one after the other. -/
def runCode (host : Host) (code : Code) (s : Machine) : Except Fault Machine :=
  code.foldlM (fun s w => execute host w.2 w.1 s) s

theorem runCode_cons (host : Host) (w : U32 × Instr) (code : Code) (s : Machine) :
    runCode host (w :: code) s = execute host w.2 w.1 s >>= runCode host code := by
  rw [runCode, List.foldlM_cons]
  rfl

/-- A place in a list with one element more: a place in the list, or the last. -/
theorem getElem?_concat_eq_some {α : Type} {l : List α} {a b : α} {p : Nat} :
    (l ++ [a])[p]? = some b ↔ l[p]? = some b ∨ p = l.length ∧ b = a := by
  rcases Nat.lt_trichotomy p l.length with hp | rfl | hp
  · rw [List.getElem?_append_left hp]
    simp [Nat.ne_of_lt hp]
  · simp [eq_comm]
  · have hnone : l[p]? = none := List.getElem?_eq_none (Nat.le_of_lt hp)
    have hnone' : (l ++ [a])[p]? = none := List.getElem?_eq_none (by simp; omega)
    simp [hnone, hnone', Nat.ne_of_gt hp]

/-- `memory` holds the words of `code` from `pc` on, and the arrays lead from each to its
handler. -/
def CodeAt (memory : Memory) : U32 → Code → Prop
  | _, [] => True
  | pc, w :: code =>
      memoryReadU32 memory pc = .ok w.1 ∧ tableDispatch w.1 = .ok w.2 ∧
        CodeAt memory (pc + 4) code

/-- The words `decode_block` goes through once `branched` is known: it stops at the first
word that is not a control transfer and comes after one. -/
inductive Chain : Bool → Code → Prop
  | last {w : U32 × Instr} (h : w.2.isControl = false) : Chain true [w]
  | control {branched : Bool} {w : U32 × Instr} {code : Code} (h : w.2.isControl = true)
      (rest : Chain true code) : Chain branched (w :: code)
  | plain {w : U32 × Instr} {code : Code} (h : w.2.isControl = false)
      (rest : Chain false code) : Chain false (w :: code)

/-- The op pushed for a word. -/
def opOf (w : U32 × Instr) : Op := ⟨w.1, some w.2⟩

/-- The last word of a code, which the terminator repeats. -/
def lastWord (code : Code) : U32 := (code.getLast?.map Prod.fst).getD 0

/-- Some word of the code is a transfer to a register. -/
def hasIndirect (code : Code) : Bool := code.any fun w => w.2.isIndirect

/-- The block `decode_block` makes of a code. -/
def blockOf (address : U32) (code : Code) : Block where
  address := address
  size := BitVec.ofNat 32 (code.length + 1)
  ops := code.map opOf ++ [⟨lastWord code, none⟩]
  indirect := hasIndirect code
  next := fun _ => none

theorem isControl_of_isIndirect {i : Instr} (h : i.isIndirect = true) : i.isControl = true := by
  cases i <;> first | rfl | cases h

theorem isIndirect_of_not_control {i : Instr} (h : i.isControl = false) :
    i.isIndirect = false := by
  by_contra hne
  rw [isControl_of_isIndirect (by simpa using hne)] at h
  cases h

/-- Two codes at one address start with the same word. -/
theorem CodeAt.head_eq {memory : Memory} {pc : U32} {w w' : U32 × Instr} {code code' : Code}
    (h : CodeAt memory pc (w :: code)) (h' : CodeAt memory pc (w' :: code')) : w = w' := by
  obtain ⟨hread, hi, -⟩ := h
  obtain ⟨hread', hi', -⟩ := h'
  have hcir : w.1 = w'.1 := Except.ok.inj (hread.symm.trans hread')
  rw [hcir] at hi
  exact Prod.ext hcir (Except.ok.inj (hi.symm.trans hi'))

/-! ### The decoding loop -/

/-- One word of the loop. -/
theorem decodeLoop_succ {memory : Memory} {fuel : Nat} {pc cir : U32} {i : Instr}
    (branched indirect : Bool) (ops : List Op) (hcir : memoryReadU32 memory pc = .ok cir)
    (hi : tableDispatch cir = .ok i) :
    decodeLoop memory false (fuel + 1) pc branched indirect ops
      = if i.isControl || !branched then
          decodeLoop memory false fuel (pc + 4) (branched || i.isControl)
            (indirect || i.isIndirect) (ops ++ [⟨cir, some i⟩])
        else .ok (ops ++ [⟨cir, some i⟩], indirect, cir) := by
  rw [decodeLoop, hcir, ok_bind, hi, ok_bind]
  cases hind : i.isIndirect with
  | true =>
      have hc := isControl_of_isIndirect hind
      simp [hc]
  | false =>
      cases hc : i.isControl with
      | true => simp
      | false => cases branched <;> simp

theorem lastWord_cons {w : U32 × Instr} {code : Code} (h : code ≠ []) :
    lastWord (w :: code) = lastWord code := by
  unfold lastWord
  rw [List.getLast?_cons, List.getLast?_eq_some_getLast h]
  rfl

theorem Chain.ne_nil {branched : Bool} {code : Code} (h : Chain branched code) : code ≠ [] := by
  cases h <;> simp

/-- A result of the loop comes from a chain in memory. -/
theorem chain_of_decodeLoop {memory : Memory} {fuel : Nat} {pc : U32} {branched indirect : Bool}
    {ops : List Op} {r : List Op × Bool × U32}
    (h : decodeLoop memory false fuel pc branched indirect ops = .ok r) :
    ∃ code, code.length ≤ fuel ∧ CodeAt memory pc code ∧ Chain branched code ∧
      r = (ops ++ code.map opOf, indirect || hasIndirect code, lastWord code) := by
  induction fuel generalizing pc branched indirect ops with
  | zero => cases h
  | succ fuel ih =>
      obtain ⟨cir, hcir, h'⟩ := bind_eq_ok.mp (show (memoryReadU32 memory pc >>= _) = _ from h)
      obtain ⟨i, hi, -⟩ := bind_eq_ok.mp h'
      rw [decodeLoop_succ branched indirect ops hcir hi] at h
      -- The loop goes on after a control instruction and before one; it stops at a delay slot.
      by_cases hgo : (i.isControl || !branched) = true
      · rw [if_pos hgo] at h
        obtain ⟨code, hlen, hcode, hchain, rfl⟩ := ih h
        refine ⟨(cir, i) :: code, Nat.succ_le_succ hlen, ⟨hcir, hi, hcode⟩, ?_, ?_⟩
        · cases hc : i.isControl with
          | true =>
              rw [hc, Bool.or_true] at hchain
              exact .control hc hchain
          | false =>
              have hb : branched = false := by simpa [hc] using hgo
              subst hb
              rw [hc] at hchain
              exact .plain hc hchain
        · simp [hasIndirect, opOf, lastWord_cons hchain.ne_nil, Bool.or_assoc]
      · rw [if_neg hgo] at h
        cases h
        have hstop : i.isControl = false ∧ branched = true := by simpa using hgo
        obtain ⟨hc, rfl⟩ := hstop
        refine ⟨[(cir, i)], by simp, ⟨hcir, hi, trivial⟩, .last hc, ?_⟩
        simp [hasIndirect, opOf, lastWord, isIndirect_of_not_control hc]

/-- The loop goes through a chain in memory. -/
theorem decodeLoop_of_chain {memory : Memory} {branched : Bool} {code : Code}
    (h : Chain branched code) {fuel : Nat} {pc : U32} {indirect : Bool} {ops : List Op}
    (hlen : code.length ≤ fuel) (hcode : CodeAt memory pc code) :
    decodeLoop memory false fuel pc branched indirect ops
      = .ok (ops ++ code.map opOf, indirect || hasIndirect code, lastWord code) := by
  induction h generalizing fuel pc indirect ops with
  | @last w hc =>
      obtain ⟨fuel, rfl⟩ := Nat.exists_eq_add_one.mpr hlen
      obtain ⟨hcir, hi, -⟩ := hcode
      rw [decodeLoop_succ _ indirect ops hcir hi, hc]
      simp [hasIndirect, opOf, lastWord, isIndirect_of_not_control hc]
  | @control branched w code hc rest ih =>
      obtain ⟨fuel, rfl⟩ := Nat.exists_eq_add_one.mpr (Nat.lt_of_lt_of_le (Nat.succ_pos _) hlen)
      obtain ⟨hcir, hi, hcode⟩ := hcode
      rw [decodeLoop_succ _ indirect ops hcir hi, hc, Bool.or_true, Bool.true_or, if_pos rfl,
        ih (Nat.le_of_succ_le_succ hlen) hcode]
      simp [hasIndirect, opOf, lastWord_cons rest.ne_nil, Bool.or_assoc]
  | @plain w code hc rest ih =>
      obtain ⟨fuel, rfl⟩ := Nat.exists_eq_add_one.mpr (Nat.lt_of_lt_of_le (Nat.succ_pos _) hlen)
      obtain ⟨hcir, hi, hcode⟩ := hcode
      rw [decodeLoop_succ _ indirect ops hcir hi, hc, if_pos (by rfl)]
      rw [show (false || false) = false from rfl, ih (Nat.le_of_succ_le_succ hlen) hcode]
      simp [hasIndirect, opOf, lastWord_cons rest.ne_nil, Bool.or_assoc]

/-- The loop succeeds exactly on a chain in memory that its fuel is enough for. -/
theorem decodeLoop_eq_ok {memory : Memory} {fuel : Nat} {pc : U32} {branched indirect : Bool}
    {ops : List Op} {r : List Op × Bool × U32} :
    decodeLoop memory false fuel pc branched indirect ops = .ok r ↔
      ∃ code, code.length ≤ fuel ∧ CodeAt memory pc code ∧ Chain branched code ∧
        r = (ops ++ code.map opOf, indirect || hasIndirect code, lastWord code) := by
  constructor
  · exact chain_of_decodeLoop
  · rintro ⟨code, hlen, hcode, hchain, rfl⟩
    exact decodeLoop_of_chain hchain hlen hcode

/-- `decode_block` on a machine that is not halted. -/
theorem decodeBlock_eq_ok {mips : Mips} {memory : Memory} {b : Block}
    (hhalt : mips.halted = false) :
    decodeBlock mips memory = .ok b ↔
      ∃ code, code.length ≤ decodeFuel ∧ CodeAt memory (mips.r MIPS_R_PC) code ∧
        Chain false code ∧ b = blockOf (mips.r MIPS_R_PC) code := by
  unfold decodeBlock
  rw [hhalt, bind_eq_ok]
  constructor
  · rintro ⟨r, hr, hb⟩
    obtain ⟨code, hlen, hcode, hchain, rfl⟩ := decodeLoop_eq_ok.mp hr
    cases hb
    exact ⟨code, hlen, hcode, hchain, by simp [blockOf]⟩
  · rintro ⟨code, hlen, hcode, hchain, rfl⟩
    refine ⟨_, decodeLoop_eq_ok.mpr ⟨code, hlen, hcode, hchain, rfl⟩, ?_⟩
    simp [blockOf]

/-! ### The shape of a chain -/

/-- One memory holds one chain from one address. -/
theorem Chain.unique {memory : Memory} {branched : Bool} {code code' : Code}
    (h : Chain branched code) :
    ∀ {pc : U32}, Chain branched code' → CodeAt memory pc code → CodeAt memory pc code' →
      code = code' := by
  -- Both codes start with the word at `pc`, so its kind decides how both go on.
  induction h generalizing code' with
  | last hc =>
      intro pc h' hat hat'
      cases h' with
      | last => rw [hat.head_eq hat']
      | control hc' =>
          rw [hat.head_eq hat', hc'] at hc
          cases hc
  | control hc rest ih =>
      intro pc h' hat hat'
      cases h' with
      | last hc' =>
          rw [hat.head_eq hat', hc'] at hc
          cases hc
      | control hc' rest' => rw [hat.head_eq hat', ih rest' hat.2.2 hat'.2.2]
      | plain hc' =>
          rw [hat.head_eq hat', hc'] at hc
          cases hc
  | plain hc rest ih =>
      intro pc h' hat hat'
      cases h' with
      | control hc' =>
          rw [hat.head_eq hat', hc'] at hc
          cases hc
      | plain hc' rest' => rw [hat.head_eq hat', ih rest' hat.2.2 hat'.2.2]

/-- A chain after a control transfer: it is one word, or its last but one is a control
transfer. Its last word is none. -/
theorem Chain.split {branched : Bool} {code : Code} (h : Chain branched code) :
    (∃ d, d.2.isControl = false ∧ branched = true ∧ code = [d]) ∨
      ∃ body w d, code = body ++ [w, d] ∧ w.2.isControl = true ∧ d.2.isControl = false := by
  induction h with
  | @last w hc => exact .inl ⟨w, hc, rfl, rfl⟩
  | @control _ w code hc rest ih =>
      rcases ih with ⟨d, hd, -, rfl⟩ | ⟨body, w', d, rfl, hw', hd⟩
      · exact .inr ⟨[], w, d, rfl, hc, hd⟩
      · exact .inr ⟨w :: body, w', d, rfl, hw', hd⟩
  | @plain w code hc rest ih =>
      rcases ih with ⟨d, -, hb, -⟩ | ⟨body, w', d, rfl, hw', hd⟩
      · cases hb
      · exact .inr ⟨w :: body, w', d, rfl, hw', hd⟩

/-- A block's code ends in a control transfer and the word in its delay slot. -/
theorem Chain.ends {code : Code} (h : Chain false code) :
    ∃ body w d, code = body ++ [w, d] ∧ w.2.isControl = true ∧ d.2.isControl = false := by
  rcases h.split with ⟨d, -, hb, -⟩ | h
  · cases hb
  · exact h

end MipsEngines
