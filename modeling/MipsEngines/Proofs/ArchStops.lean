import MipsEngines.Proofs.Architecture
import MipsEngines.Proofs.MemoryRefinement

/-!
# `MipsEngines.Proofs.ArchStops`: where the architecture leaves user mode

A step of the architecture that has no result stops for a reason, and the engine has an answer
to most of them (`Answers`): an address that is not mapped is a null dereference, a breakpoint
and a reserved instruction are `abort()`, and a system call is emulated. After an overflow, and
where the result is unpredictable, the engine goes on.

`Mapped` decides every memory access: the cells of an aligned access lie in one page.
-/

set_option autoImplicit false

namespace MipsEngines

open Lib StepMachine Arch

section Memory

variable {memory : Memory} {a : State} {x old v : U32} {st : Stop}

/-! ### Unmapped addresses -/

theorem memoryFindPage_unmapped (h : ¬ Mapped memory x) :
    memoryFindPage memory x = .error .unmapped := by
  cases hfind : memoryFindPage memory x with
  | ok page => exact absurd (mapped_iff.mpr ⟨page, memoryFindPage_eq_ok.mp hfind⟩) h
  | error e =>
      unfold memoryFindPage at hfind
      split at hfind
      · exact hfind.symm
      · split at hfind
        · exact hfind.symm
        · cases hfind

theorem byte_error (hflat : flat memory = a.bytes) (h : a.byte x = .error st) :
    st = .unmapped ∧ ¬ Mapped memory x := by
  unfold State.byte at h
  unfold Mapped
  rw [hflat]
  cases hb : a.bytes x with
  | none =>
      rw [hb] at h
      cases h
      exact ⟨rfl, by simp⟩
  | some b =>
      rw [hb] at h
      cases h

theorem half_error (hflat : flat memory = a.bytes) (h : a.half x = .error st) :
    st = .addressError ∨ (st = .unmapped ∧ ¬ Mapped memory x) := by
  unfold State.half at h
  split_ifs at h with halign
  · cases h
    exact .inl rfl
  · have hlast : ¬ Mapped memory (x + 1) → ¬ Mapped memory x :=
      mt fun hx => hx.add (n := 2) (i := 1) (.inl rfl) (by omega) (by decide)
    rcases bind_eq_error.mp h with h | ⟨b₀, -, h⟩
    · exact .inr (byte_error hflat h)
    · rcases bind_eq_error.mp h with h | ⟨b₁, -, h⟩
      · exact .inr ((byte_error hflat h).imp_right hlast)
      · cases h

theorem word_error (hflat : flat memory = a.bytes) (h : a.word x = .error st) :
    st = .addressError ∨ (st = .unmapped ∧ ¬ Mapped memory x) := by
  unfold State.word at h
  split_ifs at h with halign
  · cases h
    exact .inl rfl
  · have hlater : ∀ i < 4, ¬ Mapped memory (x + BitVec.ofNat 32 i) → ¬ Mapped memory x :=
      fun i hi => mt fun hx => hx.add (.inr rfl) (by omega) hi
    rcases bind_eq_error.mp h with h | ⟨b₀, -, h⟩
    · exact .inr (byte_error hflat h)
    · rcases bind_eq_error.mp h with h | ⟨b₁, -, h⟩
      · exact .inr ((byte_error hflat h).imp_right (hlater 1 (by decide)))
      · rcases bind_eq_error.mp h with h | ⟨b₂, -, h⟩
        · exact .inr ((byte_error hflat h).imp_right (hlater 2 (by decide)))
        · rcases bind_eq_error.mp h with h | ⟨b₃, -, h⟩
          · exact .inr ((byte_error hflat h).imp_right (hlater 3 (by decide)))
          · cases h

/-- A merge stops at a byte that it takes from memory. -/
theorem merge_error (hflat : flat memory = a.bytes) {p : Nat → Bool}
    (h : a.merge x old p = .error st) :
    st = .unmapped ∧ ∃ j < 4, p j = true ∧ ¬ Mapped memory (x + BitVec.ofNat 32 j) := by
  have hget : ∀ j < 4, (if p j then a.byte (x + BitVec.ofNat 32 j) else .ok (State.byteOfWord old j))
      = .error st → st = .unmapped ∧ ∃ j < 4, p j = true ∧ ¬ Mapped memory (x + BitVec.ofNat 32 j) := by
    intro j hj hbyte
    split_ifs at hbyte with hp
    exact (byte_error hflat hbyte).imp_right fun hx => ⟨j, hj, hp, hx⟩
  unfold State.merge at h
  rcases bind_eq_error.mp h with h | ⟨b₀, -, h⟩
  · exact hget 0 (by decide) h
  · rcases bind_eq_error.mp h with h | ⟨b₁, -, h⟩
    · exact hget 1 (by decide) h
    · rcases bind_eq_error.mp h with h | ⟨b₂, -, h⟩
      · exact hget 2 (by decide) h
      · rcases bind_eq_error.mp h with h | ⟨b₃, -, h⟩
        · exact hget 3 (by decide) h
        · cases h

theorem storing_error (hflat : flat memory = a.bytes) {n : Nat} {f : Nat → U8}
    (h : a.storing x n f = .error st) :
    st = .unmapped ∧ ∃ i < n, ¬ Mapped memory (x + BitVec.ofNat 32 i) := by
  unfold State.storing at h
  split_ifs at h with hall
  cases h
  simp only [List.all_eq_true, List.mem_range, not_forall] at hall
  obtain ⟨i, hi, hcell⟩ := hall
  exact ⟨rfl, i, hi, by rwa [Mapped, hflat]⟩

/-! ### Loads and stores -/

theorem memoryReadU8_unmapped (h : ¬ Mapped memory x) :
    memoryReadU8 memory x = .error .unmapped := by
  rw [memoryReadU8, memoryFindPage_unmapped h]
  rfl

theorem memoryReadU16_unmapped (h : ¬ Mapped memory x) :
    memoryReadU16 memory x = .error .unmapped := by
  rw [memoryReadU16, memoryFindPage_unmapped h]
  rfl

theorem memoryReadU32_unmapped (h : ¬ Mapped memory x) :
    memoryReadU32 memory x = .error .unmapped := by
  rw [memoryReadU32, memoryFindPage_unmapped h]
  rfl

theorem memoryStore_unmapped (h : ¬ Mapped memory x) (n : Nat) (bytes : Nat → U8) :
    memoryStore memory x n bytes = .error .unmapped := by
  rw [memoryStore, memoryFindPage_unmapped h]
  rfl

/-- The aligned word of an address is on its page. -/
theorem alignDown_unmapped {y : U32} (h : ¬ Mapped memory y) (hword : y.toNat / 4 = x.toNat / 4) :
    memoryReadU32 memory (x &&& ~~~3) = .error .unmapped := by
  have halign : (x &&& ~~~3).toNat = x.toNat / 4 * 4 := toNat_and_not_mask x 3 2 rfl
  refine memoryReadU32_unmapped fun hx => h (hx.congr ?_)
  unfold pageNumber
  omega

/-- A load stops at a misaligned address, or where the handler faults. -/
theorem load_error {op : LoadOp} (rt base : Fin 32) (offset : U16) (hflat : flat memory = a.bytes)
    (h : a.load x old op = .error st) :
    st = .addressError ∨ (st = .unmapped ∧
      ∃ impl, (Instruction.load op rt base offset).handler.template = .loadImm impl ∧
        impl memory x old = .error .unmapped) := by
  have hx := x.isLt
  cases op with
  | lb | lbu =>
      rcases bind_eq_error.mp h with h | ⟨b, -, h⟩
      · obtain ⟨rfl, hbyte⟩ := byte_error hflat h
        refine .inr ⟨rfl, _, rfl, ?_⟩
        simp only [itpLbImpl, itpLbuImpl, memoryReadU8_unmapped hbyte]
        rfl
      · cases h
  | lh | lhu =>
      rcases bind_eq_error.mp h with h | ⟨b, -, h⟩
      · refine (half_error hflat h).imp_right (And.imp_right fun hhalf => ⟨_, rfl, ?_⟩)
        simp only [itpLhImpl, itpLhuImpl, memoryReadU16_unmapped hhalf]
        rfl
      · cases h
  | lw =>
      exact (word_error hflat h).imp_right
        (And.imp_right fun hword => ⟨_, rfl, memoryReadU32_unmapped hword⟩)
  | lwl =>
      have hmerge : a.merge (x - 3) old (fun j => decide (3 ≤ x.toNat % 4 + j)) = .error st := h
      obtain ⟨rfl, j, hj, hp, hbyte⟩ := merge_error hflat hmerge
      have hword : (x - 3 + BitVec.ofNat 32 j).toNat / 4 = x.toNat / 4 := by
        have hle : 3 ≤ x.toNat % 4 + j := of_decide_eq_true hp
        rw [BitVec.toNat_add, BitVec.toNat_sub, BitVec.toNat_ofNat]
        show ((2 ^ 32 - 3 + x.toNat) % 2 ^ 32 + j % 2 ^ 32) % 2 ^ 32 / 4 = _
        omega
      refine .inr ⟨rfl, _, rfl, ?_⟩
      simp only [itpLwlImpl, alignDown_unmapped hbyte hword]
      rfl
  | lwr =>
      have hmerge : a.merge x old (fun j => decide (x.toNat % 4 + j < 4)) = .error st := h
      obtain ⟨rfl, j, hj, hp, hbyte⟩ := merge_error hflat hmerge
      have hword : (x + BitVec.ofNat 32 j).toNat / 4 = x.toNat / 4 := by
        have hlt : x.toNat % 4 + j < 4 := of_decide_eq_true hp
        rw [BitVec.toNat_add, BitVec.toNat_ofNat]
        omega
      refine .inr ⟨rfl, _, rfl, ?_⟩
      simp only [itpLwrImpl, alignDown_unmapped hbyte hword]
      rfl

/-- Bytes inside the aligned word of an address are on its page. -/
theorem storing_error_word (hflat : flat memory = a.bytes) {y : U32} {n : Nat} {f : Nat → U8}
    (h : a.storing y n f = .error st) (hfit : y.toNat % 4 + n ≤ 4)
    (hword : y.toNat / 4 = x.toNat / 4) : st = .unmapped ∧ ¬ Mapped memory x := by
  obtain ⟨rfl, i, hi, hbyte⟩ := storing_error hflat h
  refine ⟨rfl, fun hx => hbyte (hx.congr ?_)⟩
  have hlt := y.isLt
  unfold pageNumber
  rw [BitVec.toNat_add, BitVec.toNat_ofNat]
  omega

/-- A store stops at a misaligned address, or where no page is. -/
theorem store_mapped {op : StoreOp} (hflat : flat memory = a.bytes)
    (h : a.store x v op = .error st) :
    st = .addressError ∨ (st = .unmapped ∧ ¬ Mapped memory x) := by
  cases op with
  | sb => exact .inr (storing_error_word hflat h (by omega) rfl)
  | sh =>
      simp only [State.store] at h
      split_ifs at h with halign
      · cases h
        exact .inl rfl
      · exact .inr (storing_error_word hflat h (by omega) rfl)
  | sw =>
      simp only [State.store] at h
      split_ifs at h with halign
      · cases h
        exact .inl rfl
      · exact .inr (storing_error_word hflat h (by omega) rfl)
  | swl =>
      have hx := x.isLt
      have hstart : (x - BitVec.ofNat 32 (x.toNat % 4)).toNat = x.toNat / 4 * 4 := by
        rw [BitVec.toNat_sub, BitVec.toNat_ofNat]
        omega
      exact .inr (storing_error_word hflat h (by omega) (by omega))
  | swr => exact .inr (storing_error_word hflat h (by omega) rfl)

/-- Every handler of a store faults at its first byte. -/
theorem store_error {op : StoreOp} (rt base : Fin 32) (offset : U16)
    (hflat : flat memory = a.bytes) (h : a.store x v op = .error st) :
    st = .addressError ∨ (st = .unmapped ∧
      ∃ impl, (Instruction.store op rt base offset).handler.template = .storeImm impl ∧
        impl memory x v = .error .unmapped) := by
  refine (store_mapped hflat h).imp_right (And.imp_right fun hunmapped => ?_)
  cases op <;> exact ⟨_, rfl, memoryStore_unmapped hunmapped _ _⟩

end Memory

/-! ### The reasons of a stop -/

section Stops

variable {s : Machine} {a : State} {w x old v : U32} {i : Instruction} {st : Stop}

theorem fits_error {z : Int} (h : fits z = .error st) : st = .overflow := by
  unfold fits at h
  split_ifs at h
  cases h
  rfl

theorem aluOp_error {op : AluOp} (h : op.value x old = .error st) : st = .overflow := by
  cases op with
  | add | sub => exact fits_error h
  | addu | subu | slt | sltu | and | or | xor | nor => cases h

theorem immOp_error {op : ImmOp} {imm : U16} (h : op.value x imm = .error st) : st = .overflow := by
  cases op with
  | addi => exact fits_error h
  | addiu | slti | sltiu | andi | ori | xori => cases h

theorem mulDivOp_error {op : MulDivOp} (h : op.value x old = .error st) : st = .unpredictable := by
  cases op with
  | mult | multu => cases h
  | div | divu =>
      simp only [MulDivOp.value] at h
      split_ifs at h
      cases h
      rfl

theorem transfer_error {reg : Option (Fin 32)} {goal : Option U32}
    (h : a.transfer reg goal = .error st) : st = .unpredictable := by
  unfold State.transfer at h
  split_ifs at h
  cases h
  rfl

/-- An overflow, and what the architecture leaves open, have a handler that goes on. The other
reasons are those of the system call, the breakpoint and the accesses to memory. -/
theorem execute_error (h : a.execute i = .error st) :
    ((st = .overflow ∨ st = .unpredictable) ∧
        ∀ host s, ∃ t, execute host i.handler w s = .ok t) ∨
      (st = .systemCall ∧ i = .syscall) ∨ (st = .breakpoint ∧ i = .break) ∨
      (∃ op t base offset, i = .load op t base offset ∧
        a.load (a.address base offset) (a.reg t) op = .error st) ∨
      ∃ op t base offset, i = .store op t base offset ∧
        a.store (a.address base offset) (a.reg t) op = .error st := by
  cases i with
  | alu op d x y =>
      rcases bind_eq_error.mp h with h | ⟨v, -, h⟩
      · exact .inl ⟨.inl (aluOp_error h), fun host s => by cases op <;> exact ⟨_, rfl⟩⟩
      · cases h
  | imm op t x v =>
      rcases bind_eq_error.mp h with h | ⟨u, -, h⟩
      · exact .inl ⟨.inl (immOp_error h), fun host s => by cases op <;> exact ⟨_, rfl⟩⟩
      · cases h
  | mulDiv op x y =>
      rcases bind_eq_error.mp h with h | ⟨⟨hi, lo⟩, -, h⟩
      · exact .inl ⟨.inr (mulDivOp_error h), fun host s => by cases op <;> exact ⟨_, rfl⟩⟩
      · cases h
  | load op t base offset =>
      rcases bind_eq_error.mp h with h | ⟨v, -, h⟩
      · exact .inr (.inr (.inr (.inl ⟨op, t, base, offset, rfl, h⟩)))
      · cases h
  | store op t base offset =>
      rcases bind_eq_error.mp h with h | ⟨data, -, h⟩
      · exact .inr (.inr (.inr (.inr ⟨op, t, base, offset, rfl, h⟩)))
      · cases h
  | branch cond l x y offset =>
      refine .inl ⟨.inr (transfer_error h), fun host s => ?_⟩
      cases cond <;> cases l <;> exact ⟨_, rfl⟩
  | jump l index =>
      exact .inl ⟨.inr (transfer_error h), fun host s => by cases l <;> exact ⟨_, rfl⟩⟩
  | jr | jalr => exact .inl ⟨.inr (transfer_error h), fun host s => ⟨_, rfl⟩⟩
  | syscall =>
      cases h
      exact .inr (.inl ⟨rfl, rfl⟩)
  | «break» =>
      cases h
      exact .inr (.inr (.inl ⟨rfl, rfl⟩))
  | lui | shift | shiftVar | mfhi | mflo | mthi | mtlo | sync => cases h

/-- The round of the loop at an instruction that the architecture decodes. -/
theorem switchStep_decoded (host : Host) (hr : Refines s a) (hword : a.word a.pc = .ok w)
    (hdecode : decode w = some i) :
    switchStep host s = (execute host i.handler w s).map incrementPc := by
  rw [switchStep, fetch_eq hr hword, ok_bind, (decode_spec hdecode).1]
  show (execute host i.handler w s >>= fun s => pure (incrementPc s)) = _
  cases execute host i.handler w s <;> rfl

/-- What the engine does where the architecture stops. A word that is not aligned is nothing that
it looks for, and what it makes of one is not said here. -/
def Answers (host : Host) (s : Machine) (a : State) : Stop → Prop
  | .unmapped => switchStep host s = .error .unmapped
  | .breakpoint => switchStep host s = .error .abort
  | .reserved => switchStep host s = .error .abort ∨
      ∃ w k, fetch s = .ok w ∧ switchDispatch w = some k ∧ k.isExtension = true
  | .systemCall => switchStep host s =
      (itpSyscallImpl host (a.reg 2) (a.reg 4) (a.reg 5) (a.reg 6) s).map incrementPc
  | .overflow | .unpredictable => ∃ t, switchStep host s = .ok t
  | .addressError => True

theorem answers_decoded (host : Host) (hr : Refines s a) (hword : a.word a.pc = .ok w)
    (hdecode : decode w = some i) (h : a.execute i = .error st) : Answers host s a st := by
  have hround := switchStep_decoded host hr hword hdecode
  obtain ⟨-, hin⟩ := decode_spec hdecode
  rcases execute_error (w := w) h with ⟨hst, hgoes⟩ | ⟨rfl, rfl⟩ | ⟨rfl, rfl⟩ |
    ⟨op, t, base, offset, rfl, hload⟩ | ⟨op, t, base, offset, rfl, hstore⟩
  · obtain ⟨t, ht⟩ := hgoes host s
    rw [ht] at hround
    rcases hst with rfl | rfl <;> exact ⟨_, hround⟩
  · show switchStep host s = _
    rw [hround, ← hr.general, ← hr.general, ← hr.general, ← hr.general]
    rfl
  · exact hround
  · rcases load_error t base offset hr.bytes hload with rfl | ⟨rfl, impl, htemplate, himpl⟩
    · trivial
    · obtain ⟨hrt, hrs, himm⟩ := hin
      show switchStep host s = _
      rw [← hr.general, ← computeAddress_eq hr hrs himm, ← hrt] at himpl
      rw [hround, execute, htemplate, Template.run, typeLoadImm, himpl]
      rfl
  · rcases store_error t base offset hr.bytes hstore with rfl | ⟨rfl, impl, htemplate, himpl⟩
    · trivial
    · obtain ⟨hrt, hrs, himm⟩ := hin
      show switchStep host s = _
      rw [← hr.general, ← computeAddress_eq hr hrs himm, ← hrt] at himpl
      rw [hround, execute, htemplate, Template.run, typeStoreImm, himpl]
      rfl

/-- A stop of the architecture, in one step. -/
theorem step_stops (host : Host) (hr : Refines s a) (h : a.current = .error st) :
    Answers host s a st := by
  rcases bind_eq_error.mp h with hword | ⟨w, hword, h⟩
  · rcases word_error hr.bytes hword with rfl | ⟨rfl, hunmapped⟩
    · trivial
    · show switchStep host s = _
      rw [switchStep, fetch, hr.pc, memoryReadU32_unmapped hunmapped]
      rfl
  · cases hdecode : decode w with
    | none =>
        rw [hdecode] at h
        cases h
        rcases dispatch_of_reserved hdecode with hnone | ⟨k, hk, hextension⟩
        · refine .inl ?_
          rw [switchStep, fetch_eq hr hword, ok_bind, hnone]
        · exact .inr ⟨w, k, fetch_eq hr hword, hk, hextension⟩
    | some i =>
        rw [hdecode] at h
        rcases bind_eq_error.mp h with he | ⟨e, -, h⟩
        · exact answers_decoded host hr hword hdecode he
        · cases h

/-- After any run of the processor that the engine follows, where the architecture stops: the
engine is at the same instruction, with the same state, and what it does there is `Answers`. -/
theorem architecture_stops (host : Host) (s : Machine) (a a' : State) (visited : List State)
    (st : Stop) (hr : Refines s a) (hrun : processor.Run visited a a')
    (hregular : ∀ v ∈ visited, Regular v) (hstop : a'.current = .error st) :
    ∃ ms t, (interpreterSwitch host).Run ms s t ∧ ms.length = visited.length ∧ Refines t a' ∧
      t.calls = s.calls ∧ Answers host t a' st := by
  obtain ⟨ms, t, hms, hlength, ht, hcalls⟩ := run_refines host hr hrun hregular
  exact ⟨ms, t, hms, hlength, ht, hcalls, step_stops host ht hstop⟩

end Stops

/-! ### A run -/

/-- A word is built, and stored where no page is. -/
abbrev straying : Machine := program 0x400000 [0x3c081000, 0xad080000]

/-- The store is reached, and the engine faults on it. -/
theorem architecture_stops_straying :
    ∃ ms t, (interpreterSwitch failingHost).Run ms straying t ∧ t.reg MIPS_R_PC = 0x400004 ∧
      switchStep failingHost t = .error .unmapped := by
  obtain ⟨a, ha, hp⟩ : ∃ a, processor.execUntil (fun v => !decide (Regular v)) 1
      (archState straying rfl) = .ok a ∧
        (decide (a.pc = 0x400004) && errorWith (· == .unmapped) a.current) = true :=
    okWith_eq_true.mp (by decide +kernel)
  obtain ⟨visited, hrun, hregular⟩ := run_of_execUntil ha
  obtain ⟨hpc, hcurrent⟩ := Bool.and_eq_true_iff.mp hp
  obtain ⟨st, hstop, hst⟩ := errorWith_eq_true.mp hcurrent
  obtain ⟨ms, t, hms, -, ht, -, hanswer⟩ := architecture_stops failingHost straying
    (archState straying rfl) a visited st (refines_archState rfl rfl rfl) hrun
    (fun v hv => by simpa using hregular v hv) hstop
  rw [eq_of_beq hst] at hanswer
  exact ⟨ms, t, hms, ht.pc.trans (of_decide_eq_true hpc), hanswer⟩

end MipsEngines
