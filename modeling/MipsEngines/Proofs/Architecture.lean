import MipsEngines.Proofs.ArchValues
import MipsEngines.Proofs.ComputedGoto

/-!
# `MipsEngines.Proofs.Architecture`: the switch engine implements the architecture

`Refines s a`: the machine is the state of the architecture, with its pages as a store of
bytes, and one more program counter than the architecture has. `step_refines` is one
instruction, and `architecture_refined` a run of any length, of instructions for which the
architecture defines a result and that are none of the source's exceptions (`Departs`).
`architecture_stops` says what the engine does where the architecture leaves user mode.
-/

set_option autoImplicit false

namespace MipsEngines

open Lib StepMachine Arch

/-- The machine is the architecture's state. `NNPC` holds nothing of its own. -/
structure Refines (s : Machine) (a : State) : Prop where
  general : ∀ r, s.reg (gpr r) = a.reg r
  hi : s.reg MIPS_R_HI = a.hi
  lo : s.reg MIPS_R_LO = a.lo
  pc : s.reg MIPS_R_PC = a.pc
  npc : s.reg MIPS_R_NPC = a.npc
  nnpc : s.reg MIPS_R_NNPC = a.npc + 4
  bytes : flat s.memory = a.bytes
  running : s.mips.halted = false

/-! ### Where the engines depart from the architecture -/

/-- The instructions that the source does not implement as the architecture has them. -/
def Departs (a : State) : Instruction → Prop
  | .alu op _ rs rt => AluOp.Traps (a.reg rs) (a.reg rt) op
  | .imm op _ rs imm => ImmOp.Traps (a.reg rs) imm op
  | .mulDiv op rs rt => MulDivOp.DividesUnsigned (a.reg rs) (a.reg rt) op
  | .store op _ base offset => StoreOp.WholeWord (a.address base offset) op
  | .jump _ _ => ¬ SameRegion a.pc (a.pc + 4)
  | _ => False

/-- The engines keep a value that is written to register zero. -/
def Arch.Effect.SpoilsZero (a : State) : Effect → Prop
  | .register r v => r = 0 ∧ v ≠ 0
  | .transfer (some r) _ => r = 0 ∧ a.pc + 8 ≠ 0
  | _ => False

/-- The instruction at `pc`, if there is one, is neither. -/
def Regular (a : State) : Prop :=
  ∀ i e, a.current = .ok (i, e) → ¬ Departs a i ∧ ¬ e.SpoilsZero a

instance (a : State) : (i : Instruction) → Decidable (Departs a i)
  | .alu op _ rs rt => inferInstanceAs (Decidable (AluOp.Traps (a.reg rs) (a.reg rt) op))
  | .imm op _ rs imm => inferInstanceAs (Decidable (ImmOp.Traps (a.reg rs) imm op))
  | .mulDiv op rs rt => inferInstanceAs (Decidable (MulDivOp.DividesUnsigned (a.reg rs) (a.reg rt) op))
  | .store op _ base offset => inferInstanceAs (Decidable (StoreOp.WholeWord (a.address base offset) op))
  | .jump _ _ => inferInstanceAs (Decidable (¬ (_ : Nat) = _))
  | .lui .. | .shift .. | .shiftVar .. | .mfhi _ | .mflo _ | .mthi _ | .mtlo _ | .load ..
  | .branch .. | .jr _ | .jalr .. | .sync | .syscall | .break => inferInstanceAs (Decidable False)

instance (a : State) : (e : Effect) → Decidable (e.SpoilsZero a)
  | .register _ _ => inferInstanceAs (Decidable (_ ∧ _))
  | .transfer (some _) _ => inferInstanceAs (Decidable (_ ∧ _))
  | .nothing | .hi _ | .lo _ | .hiLo _ _ | .bytes _ | .transfer none _ =>
      inferInstanceAs (Decidable False)

instance : DecidablePred Regular := fun a =>
  match h : a.current with
  | .ok (i, e) => decidable_of_iff (¬ Departs a i ∧ ¬ e.SpoilsZero a) (by simp [Regular, h])
  | .error _ => .isTrue (by simp [Regular, h])

/-! ### Machines that refine a state -/

section Refines

variable {s t : Machine} {a a' : State}

theorem gpr_inj {i j : Fin 32} : gpr i = gpr j ↔ i = j :=
  ⟨fun h => Fin.ext (congrArg (fun r : Reg => r.val) h), congrArg gpr⟩

/-- `HI`, `LO` and the program counters are no general registers. -/
theorem gpr_ne {r : Fin 32} {j : Reg} (hj : 32 ≤ j.val) : gpr r ≠ j := by
  rintro rfl
  exact absurd r.isLt (Nat.not_lt.mpr hj)

/-- The step over an instruction that is no transfer. -/
theorem Refines.advance (hr : Refines s a) (hpipe : t.pipe = s.pipe)
    (hgpr : ∀ r, t.reg (gpr r) = a'.reg r) (hhi : t.reg MIPS_R_HI = a'.hi)
    (hlo : t.reg MIPS_R_LO = a'.lo) (hbytes : flat t.memory = a'.bytes)
    (hrunning : t.mips.halted = false) (hpc : a'.pc = a.npc) (hnpc : a'.npc = a.npc + 4) :
    Refines (incrementPc t) a' := by
  rw [incrementPc_eq, hpipe]
  refine ⟨fun r => ?_, ?_, ?_, ?_, ?_, ?_, hbytes, hrunning⟩
  · rw [Machine.reg_withPipe (gpr_lt r), hgpr]
  · rw [Machine.reg_withPipe (by decide), hhi]
  · rw [Machine.reg_withPipe (by decide), hlo]
  · exact hr.npc.trans hpc.symm
  · exact hr.nnpc.trans hnpc.symm
  · show s.reg MIPS_R_NNPC + 4 = a'.npc + 4
    rw [hr.nnpc, hnpc]

/-- A general register is written, and register zero stays zero. -/
theorem reg_write (hgpr : ∀ r, s.reg (gpr r) = a.reg r) {r : Fin 32} {v : U32}
    (hzero : ¬ (r = 0 ∧ v ≠ 0)) (i : Fin 32) :
    (s.setReg (gpr r) v).reg (gpr i) = (a.gprs.write r v).value i := by
  rw [Machine.reg_setReg]
  simp only [gpr_inj, Gprs.write]
  by_cases hi : i = r
  · by_cases hr : r = 0
    · have hv : v = 0 := Classical.not_not.mp fun hv => hzero ⟨hr, hv⟩
      rw [if_pos hi, if_neg fun h => h.2 hr, hv, hi, hr]
      exact a.gprs.zero.symm
    · rw [if_pos hi, if_pos ⟨hi, hr⟩]
  · rw [if_neg hi, if_neg fun h => hi h.1]
    exact hgpr i

theorem Refines.register (hr : Refines s a) {r : Fin 32} {v : U32} (hzero : ¬ (r = 0 ∧ v ≠ 0)) :
    Refines (incrementPc (s.setReg (gpr r) v)) (a.apply (.register r v)) := by
  have hpipe := pipe_setReg (gpr_lt r) s v
  have hother : ∀ j : Reg, 32 ≤ j.val → (s.setReg (gpr r) v).reg j = s.reg j := by
    intro j hj
    rw [Machine.reg_setReg, if_neg (gpr_ne hj).symm]
  exact hr.advance hpipe (reg_write hr.general hzero) ((hother _ (by decide)).trans hr.hi)
    ((hother _ (by decide)).trans hr.lo) hr.bytes hr.running rfl rfl

theorem Refines.hiLo (hr : Refines s a) (hi lo : U32) :
    Refines (incrementPc ((s.setReg MIPS_R_LO lo).setReg MIPS_R_HI hi)) (a.apply (.hiLo hi lo)) := by
  refine hr.advance ?_ (fun r => ?_) rfl rfl hr.bytes hr.running rfl rfl
  · rw [pipe_setReg (by decide), pipe_setReg (by decide)]
  · rw [Machine.reg_setReg, Machine.reg_setReg, if_neg (gpr_ne (by decide)),
      if_neg (gpr_ne (by decide))]
    exact hr.general r

theorem Refines.hi_write (hr : Refines s a) (v : U32) :
    Refines (incrementPc (s.setReg MIPS_R_HI v)) (a.apply (.hi v)) := by
  refine hr.advance (pipe_setReg (by decide) s v) (fun r => ?_) rfl hr.lo hr.bytes hr.running rfl rfl
  rw [Machine.reg_setReg, if_neg (gpr_ne (by decide))]
  exact hr.general r

theorem Refines.lo_write (hr : Refines s a) (v : U32) :
    Refines (incrementPc (s.setReg MIPS_R_LO v)) (a.apply (.lo v)) := by
  refine hr.advance (pipe_setReg (by decide) s v) (fun r => ?_) hr.hi rfl hr.bytes hr.running rfl rfl
  rw [Machine.reg_setReg, if_neg (gpr_ne (by decide))]
  exact hr.general r

theorem Refines.stored (hr : Refines s a) {memory : Memory} {data : U32 → Option U8}
    (hflat : flat memory = a.bytes.write data) :
    Refines (incrementPc (s.setMemory memory)) (a.apply (.bytes data)) :=
  hr.advance rfl hr.general hr.hi hr.lo hflat hr.running rfl rfl

theorem Refines.nothing (hr : Refines s a) : Refines (incrementPc s) (a.apply .nothing) :=
  hr.advance rfl hr.general hr.hi hr.lo hr.bytes hr.running rfl rfl

/-- A transfer: the return address goes to its register, and the target, or the word behind the
delay slot, is next but one. -/
theorem Refines.transferred (host : Host) (hr : Refines s a) {i : Instr} {w : U32}
    (hc : i.isControl = true) {reg : Option (Fin 32)} {goal : Option U32}
    (hlink : linkRegister i w = reg.map MipsEngines.gpr)
    (htarget : target i w s = goal.getD (a.npc + 4))
    (hzero : ¬ (Effect.transfer reg goal).SpoilsZero a) :
    ∃ t, execute host i w s = .ok t ∧ Refines (incrementPc t) (a.apply (.transfer reg goal)) ∧
      t.calls = s.calls := by
  refine ⟨_, execute_control host hc w s, ?_, ?_⟩
  · rw [incrementPc_eq, Machine.pipe_withPipe, Machine.withPipe_withPipe]
    have hother : ∀ j : Reg, 32 ≤ j.val → (link i w s).reg j = s.reg j := by
      intro j hj
      unfold link
      rw [hlink]
      cases reg with
      | none => rfl
      | some r => exact if_neg (gpr_ne hj).symm
    have hmemory : (link i w s).memory = s.memory := by
      unfold link
      split <;> rfl
    refine ⟨fun r => ?_, ?_, ?_, hr.npc, htarget, congrArg (· + 4) htarget, ?_, ?_⟩
    · rw [Machine.reg_withPipe (gpr_lt r)]
      unfold link
      rw [hlink]
      cases reg with
      | none => exact hr.general r
      | some r₀ =>
          show (s.setReg (MipsEngines.gpr r₀) (s.reg MIPS_R_PC + 8)).reg _ = _
          rw [hr.pc]
          exact reg_write hr.general hzero r
    · rw [Machine.reg_withPipe (by decide), hother _ (by decide), hr.hi]
      rfl
    · rw [Machine.reg_withPipe (by decide), hother _ (by decide), hr.lo]
      rfl
    · rw [Machine.memory_withPipe, hmemory, hr.bytes]
      rfl
    · exact (halted_link i w s).trans hr.running
  · show (link i w s).calls = s.calls
    unfold link
    split <;> rfl

end Refines

/-! ### Targets -/

section Targets

variable {s : Machine} {a : State} {w : U32}

/-- The handlers test the conditions of the architecture. -/
theorem isTaken_eq {cond : Cond} {link : Bool} {x y : Fin 32} {offset : U16} (hr : Refines s a)
    (hw : (Instruction.branch cond link x y offset).InWord w) :
    isTaken (Instruction.branch cond link x y offset).handler w s
      = cond.holds (a.reg x) (a.reg y) := by
  obtain ⟨hrs, hrt, -, -⟩ := hw
  have hx : s.reg (rs w) = a.reg x := by rw [hrs, hr.general]
  have hy : s.reg (rt w) = a.reg y := by rw [hrt, hr.general]
  cases cond with
  | eq => simp [Instruction.handler, isTaken, Cond.holds, hx, hy, beq_eq_decide]
  | ne => simp [Instruction.handler, isTaken, Cond.holds, hx, hy, bne, beq_eq_decide]
  | lez | gtz =>
      simp [Instruction.handler, isTaken, Cond.holds, hx, ltS32, BitVec.slt, ← decide_not,
        -Bool.not_eq_eq_eq_not]
  | ltz | gez =>
      cases link <;> simp [Instruction.handler, isTaken, Cond.holds, hx, ltS32, BitVec.slt,
        ← decide_not, -Bool.not_eq_eq_eq_not]

/-- A branch counts words from its delay slot. -/
theorem directTarget_branch (pc : U32) (offset : U16) :
    pc + (offset.signExtend 32 <<< 2) + 4 = BitVec.ofInt 32 (pc.toNat + 4 + 4 * offset.toInt) := by
  have hge := BitVec.le_toInt offset
  have hlt := BitVec.toInt_lt (x := offset)
  have hoffset : offset.signExtend 32 <<< 2 = BitVec.ofInt 32 (4 * offset.toInt) := by
    conv_lhs => rw [← BitVec.ofInt_toInt (x := offset)]
    exact signExtend_shiftLeft hge hlt
  rw [hoffset, BitVec.ofInt_add, BitVec.ofInt_add, BitVec.ofInt_natCast, BitVec.ofNat_toNat,
    BitVec.setWidth_eq, BitVec.add_assoc, BitVec.add_comm (BitVec.ofInt 32 _), ← BitVec.add_assoc]
  rfl

/-- A jump within a region. -/
theorem directTarget_jump {pc : U32} {index : BitVec 26} (hindex : (imm26Field w).toNat = index.toNat)
    (hregion : SameRegion pc (pc + 4)) :
    (pc &&& 0xf0000000) ||| (imm26Field w <<< 2)
      = BitVec.ofNat 32 ((pc + 4).toNat / 2 ^ 28 * 2 ^ 28 + 4 * index.toNat) := by
  have hlt := (pc + 4).isLt
  have hindex' := index.isLt
  apply BitVec.eq_of_toNat_eq
  have htarget : ((pc &&& 0xf0000000) ||| (imm26Field w <<< 2)).toNat
      = pc.toNat / 2 ^ 28 * 2 ^ 28 + 4 * (imm26Field w).toNat := toNat_directTarget_j w pc
  rw [htarget, hindex, hregion, BitVec.toNat_ofNat, Nat.mod_eq_of_lt (by omega)]

end Targets

/-! ### One instruction -/

section Step

variable {s : Machine} {a : State} {w : U32} {i : Instruction} {e : Effect}

theorem computeAddress_eq (hr : Refines s a) {base : Fin 32} {offset : U16} (hrs : rs w = gpr base)
    (himm : imm16Field w = offset) : computeAddress w s = a.address base offset := by
  rw [computeAddress, State.address, hrs, himm, hr.general, ofInt_toInt_add, BitVec.add_comm]
  rfl

/-- A transfer that the architecture defines is not in the delay slot of another one. -/
theorem transfer_eq_ok {reg : Option (Fin 32)} {goal : Option U32}
    (h : a.transfer reg goal = .ok e) : e = .transfer reg goal ∧ a.npc + 4 = a.pc + 8 := by
  unfold State.transfer State.afterTransfer at h
  split_ifs at h with hslot
  cases h
  refine ⟨rfl, ?_⟩
  have hnpc : a.npc = a.pc + 4 := by simpa using hslot
  rw [hnpc, BitVec.add_assoc]
  rfl

/-- The branches. -/
theorem branch_refines (host : Host) (hr : Refines s a) {cond : Cond} {l : Bool} {x y : Fin 32}
    {offset : U16} (hw : (Instruction.branch cond l x y offset).InWord w)
    (he : a.execute (.branch cond l x y offset) = .ok e) (hzero : ¬ e.SpoilsZero a) :
    ∃ t, execute host (Instruction.branch cond l x y offset).handler w s = .ok t ∧
      Refines (incrementPc t) (a.apply e) ∧ t.calls = s.calls := by
  obtain ⟨rfl, hnpc⟩ := transfer_eq_ok he
  have htaken := isTaken_eq hr hw
  obtain ⟨-, -, himm, hlinks⟩ := hw
  have hkind : (Instruction.branch cond l x y offset).handler.isControl = true ∧
      (Instruction.branch cond l x y offset).handler.isIndirect = false ∧
      linkRegister (Instruction.branch cond l x y offset).handler w
        = (if l then some 31 else none : Option (Fin 32)).map gpr ∧
      ∀ pc, directTarget (Instruction.branch cond l x y offset).handler w pc
        = pc + ((imm16Field w).signExtend 32 <<< 2) + 4 := by
    -- Two of the conditions have a linking form.
    cases l with
    | false => cases cond <;> exact ⟨rfl, rfl, rfl, fun _ => rfl⟩
    | true => rcases hlinks rfl with rfl | rfl <;> exact ⟨rfl, rfl, rfl, fun _ => rfl⟩
  obtain ⟨hcontrol, hdirect, hlink, htarget⟩ := hkind
  refine hr.transferred host hcontrol hlink ?_ hzero
  rw [target, hdirect, if_neg (by decide), htaken, htarget, hr.pc, himm, directTarget_branch, hnpc]
  cases cond.holds (a.reg x) (a.reg y) <;> rfl

/-- The jumps. -/
theorem jump_refines (host : Host) (hr : Refines s a) {l : Bool} {index : BitVec 26}
    (hw : (Instruction.jump l index).InWord w) (he : a.execute (.jump l index) = .ok e)
    (hregion : SameRegion a.pc (a.pc + 4)) (hzero : ¬ e.SpoilsZero a) :
    ∃ t, execute host (Instruction.jump l index).handler w s = .ok t ∧
      Refines (incrementPc t) (a.apply e) ∧ t.calls = s.calls := by
  obtain ⟨rfl, -⟩ := transfer_eq_ok he
  have htarget := directTarget_jump hw hregion
  rw [← hr.pc] at htarget
  cases l with
  | false => exact hr.transferred host rfl rfl (htarget.trans (by rw [hr.pc]; rfl)) hzero
  | true => exact hr.transferred host rfl rfl (htarget.trans (by rw [hr.pc]; rfl)) hzero

/-- An instruction of the architecture, by its handler. -/
theorem execute_refines (host : Host) (hr : Refines s a) (hw : i.InWord w)
    (he : a.execute i = .ok e) (hdeparts : ¬ Departs a i) (hzero : ¬ e.SpoilsZero a) :
    ∃ t, execute host i.handler w s = .ok t ∧ Refines (incrementPc t) (a.apply e) ∧
      t.calls = s.calls := by
  cases i with
  | alu op d x y =>
      obtain ⟨v, hv, he⟩ := bind_eq_ok.mp he
      cases he
      obtain ⟨hrd, hrs, hrt⟩ := hw
      obtain ⟨impl, htemplate, himpl⟩ := aluReg_value d x y hv hdeparts
      refine ⟨_, ?_, hr.register hzero, rfl⟩
      rw [execute, htemplate, Template.run, typeAluReg, hrs, hrt, hr.general, hr.general, himpl, hrd]
  | imm op t x v =>
      obtain ⟨u, hu, he⟩ := bind_eq_ok.mp he
      cases he
      obtain ⟨hrt, hrs, himm⟩ := hw
      obtain ⟨impl, htemplate, himpl⟩ := aluImm_value t x hu hdeparts
      refine ⟨_, ?_, hr.register hzero, rfl⟩
      rw [execute, htemplate, Template.run, typeAluImm, hrs, himm, hr.general, himpl, hrt]
  | lui t v =>
      cases he
      obtain ⟨hrt, himm⟩ := hw
      refine ⟨_, ?_, hr.register hzero, rfl⟩
      have hvalue : v.setWidth 32 <<< 16 = BitVec.ofNat 32 (v.toNat * 2 ^ 16) := by
        rw [sll_value, ShiftOp.value, BitVec.toNat_setWidth, Nat.mod_eq_of_lt (by omega)]
      rw [execute, Instruction.handler, Instr.template, Template.run, typeLuiImm, hrt, himm, hvalue]
  | shift op d t amount =>
      cases he
      obtain ⟨hrd, hrt, hsh⟩ := hw
      obtain ⟨impl, htemplate, himpl⟩ := shift_value op d t amount (a.reg t) amount.val
      refine ⟨_, ?_, hr.register hzero, rfl⟩
      rw [execute, htemplate, Template.run, typeShiftImm, hrd, hrt, hsh, hr.general, himpl]
  | shiftVar op d t x =>
      cases he
      obtain ⟨hrd, hrs, hrt⟩ := hw
      obtain ⟨impl, htemplate, himpl⟩ := shiftVar_value op d t x (a.reg x) (a.reg t)
      refine ⟨_, ?_, hr.register hzero, rfl⟩
      rw [execute, htemplate, Template.run, typeShiftReg, hrd, hrs, hrt, hr.general, hr.general,
        himpl]
  | mulDiv op x y =>
      obtain ⟨⟨hi, lo⟩, hv, he⟩ := bind_eq_ok.mp he
      cases he
      obtain ⟨hrs, hrt⟩ := hw
      obtain ⟨impl, htemplate, himpl⟩ := mulDiv_value x y hv hdeparts
      refine ⟨_, ?_, hr.hiLo hi lo, rfl⟩
      rw [execute, htemplate, Template.run, typeMultDiv, hrs, hrt, hr.general, hr.general, himpl]
  | mfhi d =>
      cases he
      refine ⟨_, ?_, hr.register hzero, rfl⟩
      rw [execute, Instruction.handler, Instr.template, Template.run, typeMf, hw, hr.hi]
  | mflo d =>
      cases he
      refine ⟨_, ?_, hr.register hzero, rfl⟩
      rw [execute, Instruction.handler, Instr.template, Template.run, typeMf, hw, hr.lo]
  | mthi x =>
      cases he
      refine ⟨_, ?_, hr.hi_write _, rfl⟩
      rw [execute, Instruction.handler, Instr.template, Template.run, typeMt, hw, hr.general]
  | mtlo x =>
      cases he
      refine ⟨_, ?_, hr.lo_write _, rfl⟩
      rw [execute, Instruction.handler, Instr.template, Template.run, typeMt, hw, hr.general]
  | load op t base offset =>
      obtain ⟨v, hv, he⟩ := bind_eq_ok.mp he
      cases he
      obtain ⟨hrt, hrs, himm⟩ := hw
      obtain ⟨impl, htemplate, himpl⟩ := load_value t base offset hr.bytes hv
      refine ⟨_, ?_, hr.register hzero, rfl⟩
      rw [execute, htemplate, Template.run]
      rw [← hr.general, ← computeAddress_eq hr hrs himm, ← hrt] at himpl
      rw [typeLoadImm_eq himpl, hrt]
  | store op t base offset =>
      obtain ⟨data, hdata, he⟩ := bind_eq_ok.mp he
      cases he
      obtain ⟨hrt, hrs, himm⟩ := hw
      obtain ⟨impl, htemplate, memory, himpl, hflat⟩ :=
        store_value t base offset hr.bytes hdata hdeparts
      refine ⟨_, ?_, hr.stored hflat, rfl⟩
      rw [← hr.general, ← computeAddress_eq hr hrs himm, ← hrt] at himpl
      rw [execute, htemplate, Template.run, typeStoreImm, himpl, ok_bind]
      rfl
  | branch cond l x y offset => exact branch_refines host hr hw he hzero
  | jump l index => exact jump_refines host hr hw he (Classical.not_not.mp hdeparts) hzero
  | jr x =>
      obtain ⟨rfl, -⟩ := transfer_eq_ok he
      refine hr.transferred host rfl rfl ?_ hzero
      show s.reg (rs w) = a.reg x
      rw [hw, hr.general]
  | jalr d x =>
      obtain ⟨rfl, -⟩ := transfer_eq_ok he
      obtain ⟨hrd, hrs⟩ := hw
      refine hr.transferred host rfl (congrArg some hrd) ?_ hzero
      show s.reg (rs w) = a.reg x
      rw [hrs, hr.general]
  | sync =>
      cases he
      exact ⟨s, rfl, hr.nothing, rfl⟩
  | syscall | «break» => cases he

end Step

/-! ### Whole runs -/

section Runs

variable {host : Host} {s : Machine} {a a' : State}

theorem current_eq_ok {i : Instruction} {e : Effect} (h : a.current = .ok (i, e)) :
    ∃ w, a.word a.pc = .ok w ∧ decode w = some i ∧ a.execute i = .ok e := by
  obtain ⟨w, hw, h⟩ := bind_eq_ok.mp h
  cases hdecode : decode w with
  | none => rw [hdecode] at h; cases h
  | some j =>
      rw [hdecode] at h
      obtain ⟨e', he, h⟩ := bind_eq_ok.mp h
      cases h
      exact ⟨w, hw, hdecode, he⟩

/-- A fetch of the architecture is one of the engine. -/
theorem fetch_eq (hr : Refines s a) {w : U32} (h : a.word a.pc = .ok w) : fetch s = .ok w := by
  rw [fetch, hr.pc]
  exact word_value hr.bytes h

/-- One step of the processor is one round of the loop of the engine. -/
theorem step_refines (host : Host) (hr : Refines s a) (hregular : Regular a)
    (h : processor.step a = .ok a') :
    ∃ t, switchStep host s = .ok t ∧ Refines t a' ∧ t.calls = s.calls := by
  obtain ⟨⟨i, e⟩, hcurrent, h⟩ := bind_eq_ok.mp h
  cases h
  obtain ⟨w, hw, hdecode, he⟩ := current_eq_ok hcurrent
  obtain ⟨hdeparts, hzero⟩ := hregular i e hcurrent
  obtain ⟨hdispatch, hin⟩ := decode_spec hdecode
  obtain ⟨t, ht, hrefines, hcalls⟩ := execute_refines host hr hin he hdeparts hzero
  exact ⟨incrementPc t, switchStep_eq_ok.mpr ⟨w, _, t, fetch_eq hr hw, hdispatch, ht, rfl⟩, hrefines,
    hcalls⟩

/-- The run of the switch engine. -/
theorem run_refines (host : Host) {visited : List State} (hr : Refines s a)
    (hrun : processor.Run visited a a') (hregular : ∀ v ∈ visited, Regular v) :
    ∃ ms t, (interpreterSwitch host).Run ms s t ∧ ms.length = visited.length ∧ Refines t a' ∧
      t.calls = s.calls := by
  induction hrun generalizing s with
  | refl => exact ⟨[], s, .refl s, rfl, hr, rfl⟩
  | head _ hstep _ ih =>
      obtain ⟨hfirst, hrest⟩ := List.forall_mem_cons.mp hregular
      obtain ⟨s₁, hs₁, hr₁, hcalls₁⟩ := step_refines host hr hfirst hstep
      obtain ⟨ms, t, hms, hlength, ht, hcalls⟩ := ih hr₁ hrest
      exact ⟨s :: ms, t, .head hr.running hs₁ hms, congrArg (· + 1) hlength, ht,
        hcalls.trans hcalls₁⟩

/-- A run of the processor is a run of the switch engine, instruction by instruction, and of the
computed-goto engine, with the same registers, program counters and memory at its end, and
without a host call: from any machine that is in the architecture's state, as long as every
instruction has a result there and is none of the source's exceptions. -/
theorem architecture_refined (host : Host) (s : Machine) (a a' : State) (visited : List State)
    (hr : Refines s a) (hrun : processor.Run visited a a') (hregular : ∀ v ∈ visited, Regular v) :
    ∃ t, Refines t a' ∧ t.calls = s.calls ∧
      (∃ ms, (interpreterSwitch host).Run ms s t ∧ ms.length = visited.length) ∧
      ∃ gs, (interpreterComputedGoto host).Run gs ⟨.dispatch, s⟩ ⟨.dispatch, t⟩ ∧
        gs.countP GotoState.atInstr = visited.length := by
  obtain ⟨ms, t, hms, hlength, ht, hcalls⟩ := run_refines host hr hrun hregular
  -- The goto engine is at a `DISPATCH` with the machine of the switch engine.
  obtain ⟨gs, g, hgs, hcount, rfl⟩ := hms.simulate
    (N := interpreterComputedGoto host) (p := GotoState.atInstr) (R := fun s g => g = ⟨.dispatch, s⟩)
    (fun s s' g hg hhalt hstep => by
      obtain ⟨ws, hws, hcount⟩ := goto_round host hhalt hstep
      exact ⟨ws, _, hg ▸ hws, hcount, rfl⟩) rfl
  exact ⟨t, ht, hcalls, ⟨ms, hms, hlength⟩, ⟨gs, hgs, hcount.trans hlength⟩⟩

end Runs

/-! ### A run -/

/-- The state of a machine whose register zero is zero. -/
def archState (s : Machine) (h : s.reg (gpr 0) = 0) : State where
  gprs := ⟨fun r => s.reg (gpr r), h⟩
  hi := s.reg MIPS_R_HI
  lo := s.reg MIPS_R_LO
  pc := s.reg MIPS_R_PC
  npc := s.reg MIPS_R_NPC
  bytes := flat s.memory

theorem refines_archState {s : Machine} (h : s.reg (gpr 0) = 0)
    (hnnpc : s.reg MIPS_R_NNPC = s.reg MIPS_R_NPC + 4) (hrunning : s.mips.halted = false) :
    Refines s (archState s h) :=
  ⟨fun _ => rfl, rfl, rfl, rfl, rfl, hnnpc, rfl, hrunning⟩

/-- A loop that counts down from three, and the sum after it. -/
abbrev countdown : Machine :=
  program 0x400000 [0x24080003, 0x2508ffff, 0x1500fffe, 0, 0x01085021]

/-- The loop, run by the architecture, by the switch engine and by the computed-goto engine. -/
theorem architecture_refined_countdown :
    ∃ t a, Refines t a ∧ a.pc = 0x400014 ∧ a.reg 8 = 0 ∧
      (∃ ms, (interpreterSwitch failingHost).Run ms countdown t) ∧
      ∃ gs, (interpreterComputedGoto failingHost).Run gs ⟨.dispatch, countdown⟩ ⟨.dispatch, t⟩ := by
  obtain ⟨a, ha, hp⟩ : ∃ a, processor.execUntil (fun v => !decide (Regular v)) 11
      (archState countdown rfl) = .ok a ∧ (decide (a.pc = 0x400014) && decide (a.reg 8 = 0)) = true :=
    okWith_eq_true.mp (by decide +kernel)
  obtain ⟨visited, hrun, hregular⟩ := run_of_execUntil ha
  obtain ⟨t, ht, -, ⟨ms, hms, -⟩, ⟨gs, hgs, -⟩⟩ := architecture_refined failingHost countdown
    (archState countdown rfl) a visited (refines_archState rfl rfl rfl) hrun
    fun v hv => by simpa using hregular v hv
  simp only [Bool.and_eq_true, decide_eq_true_eq] at hp
  exact ⟨t, a, ht, hp.1, hp.2, ⟨ms, hms⟩, ⟨gs, hgs⟩⟩

end MipsEngines
