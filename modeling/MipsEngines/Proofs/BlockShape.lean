import MipsEngines.Proofs.BlockLinks
import MipsEngines.Proofs.SwitchBlocks

/-!
# `MipsEngines.Proofs.BlockShape`: what a decoded block looks like

`decode_block` has no loop: a flag that the labels share decides at each of them whether to
go on. `Chain.shape` says what that comes to, words that are no control transfers, then one
or more that are, then one more that is not. `decodeBlock_shape` says the same of the block, op
by op, and where the address that the engine jumps ahead to comes from.
-/

set_option autoImplicit false

namespace MipsEngines

open Lib

/-! ### The shape of a chain -/

/-- A chain is a stretch of plain words, a stretch of control transfers and one plain word.
Once a control transfer has been seen, the first stretch is over. -/
theorem Chain.shape {branched : Bool} {code : Code} (h : Chain branched code) :
    ∃ body run d, code = body ++ run ++ [d] ∧ (∀ v ∈ body, v.2.isControl = false) ∧
      (∀ v ∈ run, v.2.isControl = true) ∧ d.2.isControl = false ∧
      (branched = true → body = []) ∧ (branched = false → run ≠ []) := by
  induction h with
  | @last d hd => exact ⟨[], [], d, rfl, by simp, by simp, hd, fun _ => rfl, by simp⟩
  -- A transfer sets the flag, so behind it there is no stretch of plain words.
  | @control branched w code hw rest ih =>
      obtain ⟨body, run, d, rfl, -, hrun, hd, hbody, -⟩ := ih
      rw [hbody rfl]
      exact ⟨[], w :: run, d, rfl, by simp, List.forall_mem_cons.mpr ⟨hw, hrun⟩, hd,
        fun _ => rfl, by simp⟩
  -- A plain word that goes on comes before every transfer.
  | @plain w code hw rest ih =>
      obtain ⟨body, run, d, rfl, hbody, hrun, hd, -, hne⟩ := ih
      exact ⟨w :: body, run, d, rfl, List.forall_mem_cons.mpr ⟨hw, hbody⟩, hrun, hd, by simp, hne⟩

/-- The control transfers of such a code, by their place. -/
theorem isControl_iff {body run : Code} {d : U32 × Instr}
    (hbody : ∀ v ∈ body, v.2.isControl = false) (hrun : ∀ v ∈ run, v.2.isControl = true)
    (hd : d.2.isControl = false) {j : Nat} {w : U32 × Instr}
    (hw : (body ++ run ++ [d])[j]? = some w) :
    w.2.isControl = true ↔ body.length ≤ j ∧ j < body.length + run.length := by
  rcases getElem?_concat_eq_some.mp hw with hw | ⟨rfl, rfl⟩
  · by_cases hj : j < body.length
    · rw [List.getElem?_append_left hj] at hw
      simp [hbody w (List.mem_of_getElem? hw), hj]
    · rw [List.getElem?_append_right (by omega)] at hw
      have hlt : j - body.length < run.length := (List.getElem?_eq_some_iff.mp hw).1
      simp only [hrun w (List.mem_of_getElem? hw), true_iff]
      omega
  · rw [List.length_append]
    simp [hd]

/-! ### The shape of a block -/

/-- The handler of op `j`, if there is such an op and it has one. -/
def handlerAt (b : Block) (j : Nat) : Option Instr := b.ops[j]?.bind Op.op

/-- A block of `n` ops, decoded at `pc`. Its control transfers are the ops from `first` to
`n - 2`. -/
structure BlockShape (memory : Memory) (pc : U32) (b : Block) (n first : Nat) : Prop where
  size : (b.size - 1).toNat = n
  length : b.ops.length = n + 1
  two_le : 2 ≤ n
  words : ∀ j < n, ∃ cir i, b.ops[j]? = some ⟨cir, some i⟩ ∧
    memoryReadU32 memory (pc + BitVec.ofNat 32 (4 * j)) = .ok cir ∧ switchDispatch cir = some i
  terminator : ∃ cir, b.ops[n]? = some ⟨cir, none⟩
  first_le : first ≤ n - 2
  control : ∀ j i, handlerAt b j = some i → (i.isControl = true ↔ first ≤ j ∧ j ≤ n - 2)
  indirect : b.indirect = true ↔
    ∃ j, first ≤ j ∧ j ≤ n - 2 ∧ (handlerAt b j = some .jr ∨ handlerAt b j = some .jalr)
  /-- Where the engine moves `PC` to before it runs the block: its last control transfer. -/
  ahead : pc + 4 * (b.size - 3) = pc + BitVec.ofNat 32 (4 * (n - 2))
  address : b.address = pc

/-- The handlers of a block made of a code. -/
theorem handlerAt_blockOf {address : U32} {code : Code} {j : Nat} {i : Instr} :
    handlerAt (blockOf address code) j = some i ↔ ∃ w, code[j]? = some w ∧ w.2 = i := by
  unfold handlerAt blockOf
  constructor
  · intro h
    obtain ⟨op, hop, hi⟩ := Option.bind_eq_some_iff.mp h
    rcases getElem?_concat_eq_some.mp hop with hop | ⟨-, rfl⟩
    · rw [List.getElem?_map, Option.map_eq_some_iff] at hop
      obtain ⟨w, hw, rfl⟩ := hop
      exact ⟨w, hw, Option.some.inj hi⟩
    · cases hi
  · rintro ⟨w, hw, rfl⟩
    have hop : (code.map opOf ++ [⟨lastWord code, none⟩])[j]? = some (opOf w) :=
      getElem?_concat_eq_some.mpr (.inl (by rw [List.getElem?_map, hw]; rfl))
    rw [hop]
    rfl

theorem isIndirect_iff (i : Instr) : i.isIndirect = true ↔ i = .jr ∨ i = .jalr := by
  cases i <;> simp [Instr.isIndirect]

/-- The block of a code in memory. -/
theorem blockOf_shape {memory : Memory} {pc : U32} {body run : Code} {d : U32 × Instr}
    (hlen : (body ++ run ++ [d]).length ≤ decodeFuel)
    (hcode : CodeAt memory pc (body ++ run ++ [d]))
    (hbody : ∀ v ∈ body, v.2.isControl = false) (hrun : ∀ v ∈ run, v.2.isControl = true)
    (hne : run ≠ []) (hd : d.2.isControl = false) :
    BlockShape memory pc (blockOf pc (body ++ run ++ [d])) (body.length + run.length + 1)
      body.length := by
  have hpos : 1 ≤ run.length := List.length_pos_iff.mpr hne
  have hcount : (body ++ run ++ [d]).length = body.length + run.length + 1 := by
    simp [Nat.add_assoc]
  have hsmall : body.length + run.length + 1 ≤ 2 ^ 30 + 2 := hcount ▸ hlen
  -- A control transfer of the block, by its handler.
  have hcontrol : ∀ j i, handlerAt (blockOf pc (body ++ run ++ [d])) j = some i →
      (i.isControl = true ↔ body.length ≤ j ∧ j < body.length + run.length) := by
    intro j i hi
    obtain ⟨w, hw, rfl⟩ := handlerAt_blockOf.mp hi
    exact isControl_iff hbody hrun hd hw
  constructor
  case size =>
    -- The terminator counts, and the fuel keeps the count below `2 ^ 32`.
    show (BitVec.ofNat 32 ((body ++ run ++ [d]).length + 1) - 1).toNat = _
    rw [hcount]
    bv_omega
  case length => simp [blockOf, Nat.add_assoc]
  case two_le => omega
  case words =>
    intro j hj
    have hw : (body ++ run ++ [d])[j]? = some (body ++ run ++ [d])[j] :=
      List.getElem?_eq_getElem (by omega)
    obtain ⟨hread, hi⟩ := codeAt_iff.mp hcode j _ hw
    refine ⟨_, _, ?_, hread, tableDispatch_eq_ok_iff.mp hi⟩
    exact getElem?_concat_eq_some.mpr (.inl (by rw [List.getElem?_map, hw]; rfl))
  case terminator =>
    refine ⟨lastWord (body ++ run ++ [d]), getElem?_concat_eq_some.mpr (.inr ⟨?_, rfl⟩)⟩
    rw [List.length_map, hcount]
  case first_le => omega
  case control =>
    intro j i hi
    rw [hcontrol j i hi]
    omega
  case indirect =>
    show hasIndirect _ = true ↔ _
    rw [hasIndirect, List.any_eq_true]
    constructor
    · rintro ⟨w, hw, hind⟩
      -- The flag comes from a transfer, and those are the ops from `first` on.
      obtain ⟨j, hj⟩ := List.mem_iff_getElem?.mp hw
      have hi : handlerAt (blockOf pc (body ++ run ++ [d])) j = some w.2 :=
        handlerAt_blockOf.mpr ⟨w, hj, rfl⟩
      obtain ⟨hfirst, hlast⟩ := (hcontrol j _ hi).mp (isControl_of_isIndirect hind)
      refine ⟨j, hfirst, by omega, ?_⟩
      rw [hi, Option.some.injEq, Option.some.injEq]
      exact (isIndirect_iff w.2).mp hind
    · rintro ⟨j, -, -, hj⟩
      rcases hj with hj | hj
      · obtain ⟨w, hw, hi⟩ := handlerAt_blockOf.mp hj
        exact ⟨w, List.mem_of_getElem? hw, (isIndirect_iff w.2).mpr (.inl hi)⟩
      · obtain ⟨w, hw, hi⟩ := handlerAt_blockOf.mp hj
        exact ⟨w, List.mem_of_getElem? hw, (isIndirect_iff w.2).mpr (.inr hi)⟩
  case ahead =>
    show pc + 4 * (BitVec.ofNat 32 ((body ++ run ++ [d]).length + 1) - 3) = _
    obtain ⟨k, hk⟩ := Nat.exists_eq_add_one.mpr (show 0 < body.length + run.length by omega)
    rw [hcount, hk, four_mul_size_sub]
    rfl
  case address => rfl

/-- Looking a block up, decoding it and linking it leaves registers and memory alone. -/
theorem outer_machine {host : Host} {e f : BlockedState} (hcontrol : e.control = .outer)
    (h : blockedStep host e = .ok f) : f.machine = e.machine := by
  obtain ⟨control, blocks, previous, s⟩ := e
  cases hcontrol
  cases hhalt : s.mips.halted with
  | true =>
      rw [blockedStep_outer_halted host previous s hhalt] at h
      cases h
      rfl
  | false =>
      rcases blockedStep_outer host previous s hhalt h with ⟨current, -, rfl⟩ | ⟨b, -, -, rfl⟩
      · rfl
      · rfl

/-- Every block that `decode_block` returns, for a machine that is not halted: its shape, the
program counter that the engine runs it with, and that decoding it changes neither registers
nor memory. -/
theorem decodeBlock_shape (s : Machine) (b : Block) (hhalt : s.mips.halted = false)
    (h : decodeBlock s.mips s.memory = .ok b) :
    (∃ n first, BlockShape s.memory (s.reg MIPS_R_PC) b n first ∧
      (preIncrement b s).reg MIPS_R_PC = s.reg MIPS_R_PC + BitVec.ofNat 32 (4 * (n - 2))) ∧
      ∀ host e f, e.control = .outer → e.machine = s → blockedStep host e = .ok f →
        f.machine = s := by
  constructor
  · obtain ⟨code, hlen, hcode, hchain, rfl⟩ := (decodeBlock_eq_ok hhalt).mp h
    obtain ⟨body, run, d, rfl, hbody, hrun, hd, -, hne⟩ := hchain.shape
    have hshape := blockOf_shape hlen hcode hbody hrun (hne rfl) hd
    exact ⟨_, _, hshape, hshape.ahead⟩
  · intro host e f hcontrol hmachine hstep
    rw [← hmachine]
    exact outer_machine hcontrol hstep

/-- A `NOP`, a branch and its delay slot. -/
theorem decodeBlock_shape_branch :
    ∃ b, decodeBlock (program 0x400000 [0, 0x10000000, 0]).mips
        (program 0x400000 [0, 0x10000000, 0]).memory = .ok b ∧
      ∃ n first, BlockShape (program 0x400000 [0, 0x10000000, 0]).memory 0x400000 b n first := by
  obtain ⟨b, hb, -⟩ := okWith_eq_true.mp (show okWith (fun _ => true)
    (decodeBlock (program 0x400000 [0, 0x10000000, 0]).mips
      (program 0x400000 [0, 0x10000000, 0]).memory) = true by decide +kernel)
  obtain ⟨⟨n, first, hshape, -⟩, -⟩ := decodeBlock_shape _ b rfl hb
  exact ⟨b, hb, n, first, hshape⟩

end MipsEngines
