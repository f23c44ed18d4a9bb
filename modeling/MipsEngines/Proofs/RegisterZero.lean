import MipsEngines.Proofs.EveryEngine
import MipsEngines.Proofs.Frames

/-!
# `MipsEngines.Proofs.RegisterZero`: when register zero stays zero

No handler treats register 0 apart: a handler whose destination field names it stores
there. `fieldStore` is the store a handler makes to a register named by its word, with
the value it makes of its operands. `registerZero_iff` says that along any run of any
engine, register 0 stays zero exactly when no instruction stores another value to it.
`registerZero_written` is a program that does so on all four engines.
-/

set_option autoImplicit false

namespace MipsEngines

open Lib StepMachine

/-! ### Stores to a register named by the word -/

/-- The register a handler stores to because a field of the word names it, and the value
its implementation makes of the operands. -/
def Template.fieldStore (cir : U32) (s : Machine) : Template → Option (Reg × U32)
  | .shiftImm impl => some (rd cir, impl (s.reg (rt cir)) (shField cir))
  | .shiftReg impl => some (rd cir, impl (s.reg (rs cir)) (s.reg (rt cir)))
  | .jalr => some (rd cir, s.reg MIPS_R_PC + 8)
  | .mf source => some (rd cir, s.reg source)
  | .aluReg impl => (impl (s.reg (rs cir)) (s.reg (rt cir))).map (rd cir, ·)
  | .aluImm impl => (impl (s.reg (rs cir)) (imm16Field cir)).map (rt cir, ·)
  | .luiImm => some (rt cir, (imm16Field cir).setWidth 32 <<< 16)
  | .loadImm impl =>
      (impl s.memory (computeAddress cir s) (s.reg (rt cir))).toOption.map (rt cir, ·)
  | .sc => some (rt cir, 1)
  | .rdhwr => some (rt cir,
      if (rd cir).val = 3 then 1 else if (rd cir).val = 29 then s.mips.userLocalPtr else 0)
  | .jr | .syscall | .special | .brk | .mt _ | .multDiv _ | .branchGeneric _ _ | .jJal _
  | .branchEqNe _ | .storeImm _ => none

/-- If the instruction names register 0 as its destination, it stores zero there. -/
def StoresZero (w : U32 × Instr) (s : Machine) : Prop :=
  ∀ v, w.2.template.fieldStore w.1 s = some (MIPS_R_ZERO, v) → v = 0

/-- The check for it. -/
def storesZero (w : U32 × Instr) (s : Machine) : Bool :=
  (w.2.template.fieldStore w.1 s).all fun p => p.1 != MIPS_R_ZERO || p.2 == 0

theorem storesZero_iff {w : U32 × Instr} {s : Machine} :
    storesZero w s = true ↔ StoresZero w s := by
  unfold storesZero StoresZero
  cases w.2.template.fieldStore w.1 s with
  | none => simp
  | some p =>
      obtain ⟨r, v⟩ := p
      simp only [Option.all_some, Bool.or_eq_true, bne_iff_ne, ne_eq, beq_iff_eq,
        Option.some.injEq, Prod.mk.injEq, and_imp]
      constructor
      · rintro h v' rfl rfl
        exact h.resolve_left fun hr => hr rfl
      · intro h
        by_cases hr : r = MIPS_R_ZERO
        · exact .inr (h v hr rfl)
        · exact .inl hr

instance (w : U32 × Instr) (s : Machine) : Decidable (StoresZero w s) :=
  decidable_of_iff (storesZero w s = true) storesZero_iff

/-- Register 0 after a store. -/
theorem reg_zero_setReg (s : Machine) (r : Reg) (v : U32) (hs : s.reg MIPS_R_ZERO = 0) :
    (s.setReg r v).reg MIPS_R_ZERO = 0 ↔ (r = MIPS_R_ZERO → v = 0) := by
  rw [Machine.reg_setReg]
  by_cases hr : r = MIPS_R_ZERO
  · subst hr
    simp
  · rw [if_neg (Ne.symm hr)]
    exact ⟨fun _ h => absurd h hr, fun _ => hs⟩

theorem reg_zero_withPipe (s : Machine) (p : Pipe) :
    (s.withPipe p).reg MIPS_R_ZERO = s.reg MIPS_R_ZERO :=
  Machine.reg_withPipe (by decide) s p

/-- A link store in `RA`. -/
theorem reg_zero_link {i : Instr} (cir : U32) (s : Machine)
    (h : linkRegister i cir = none ∨ linkRegister i cir = some MIPS_R_RA) :
    (link i cir s).reg MIPS_R_ZERO = s.reg MIPS_R_ZERO := by
  unfold link
  rcases h with h | h
  · rw [h]
  · rw [h]
    exact reg_setReg_of_ne (by decide) _ _

/-- The control transfers that do not name a destination. -/
theorem reg_zero_control {host : Host} {i : Instr} {cir : U32} {s t : Machine}
    (hi : i.isControl = true)
    (hlink : linkRegister i cir = none ∨ linkRegister i cir = some MIPS_R_RA)
    (h : execute host i cir s = .ok t) : t.reg MIPS_R_ZERO = s.reg MIPS_R_ZERO := by
  rw [execute_control host hi] at h
  cases h
  rw [reg_zero_withPipe, reg_zero_link cir s hlink]

section Handler

variable {host : Host} {i : Instr} {cir : U32} {s s' t : Machine}

/-- A handler that ends in the store of its field. -/
theorem reg_zero_of_store {r : Reg} {v : U32} (hs' : s'.reg MIPS_R_ZERO = 0)
    (hfield : i.template.fieldStore cir s = some (r, v)) :
    (s'.setReg r v).reg MIPS_R_ZERO = 0 ↔ StoresZero (cir, i) s := by
  rw [reg_zero_setReg s' r v hs']
  constructor
  · intro h u hu
    rw [hfield] at hu
    cases hu
    exact h rfl
  · rintro h rfl
    exact h v hfield

/-- A handler that has no such store. -/
theorem reg_zero_of_none (hs : s.reg MIPS_R_ZERO = 0)
    (ht : t.reg MIPS_R_ZERO = s.reg MIPS_R_ZERO)
    (hfield : i.template.fieldStore cir s = none) :
    t.reg MIPS_R_ZERO = 0 ↔ StoresZero (cir, i) s := by
  constructor
  · intro _ v hv
    rw [hfield] at hv
    cases hv
  · intro _
    rw [ht, hs]

/-- One handler: from a machine with zero in register 0, it leaves zero there exactly when
it stores nothing else. -/
theorem execute_reg_zero (hs : s.reg MIPS_R_ZERO = 0) (h : execute host i cir s = .ok t) :
    t.reg MIPS_R_ZERO = 0 ↔ StoresZero (cir, i) s := by
  -- One case for each template, the instructions of a template together.
  cases i with
  | blez | bgtz | bltz | bgez | beq | bne | j | jr =>
      exact reg_zero_of_none hs (reg_zero_control rfl (.inl rfl) h) rfl
  | jal | bltzal | bgezal => exact reg_zero_of_none hs (reg_zero_control rfl (.inr rfl) h) rfl
  | jalr =>
      rw [execute_control host rfl] at h
      cases h
      rw [reg_zero_withPipe]
      exact reg_zero_of_store hs rfl
  | addi | addiu | slti | sltiu | andi | ori | xori =>
      cases h
      show (typeAluImm cir s _).reg MIPS_R_ZERO = 0 ↔ _
      unfold typeAluImm
      split
      next v hv => exact reg_zero_of_store hs (congrArg (Option.map (rt cir, ·)) hv)
      next hv => exact reg_zero_of_none hs rfl (congrArg (Option.map (rt cir, ·)) hv)
  | add | addu | sub | subu | slt | sltu | and | or | xor | nor =>
      cases h
      show (typeAluReg cir s _).reg MIPS_R_ZERO = 0 ↔ _
      unfold typeAluReg
      split
      next v hv => exact reg_zero_of_store hs (congrArg (Option.map (rd cir, ·)) hv)
      next hv => exact reg_zero_of_none hs rfl (congrArg (Option.map (rd cir, ·)) hv)
  | lui | rdhwr =>
      cases h
      exact reg_zero_of_store hs rfl
  | sll | srl | sra | sllv | srlv | srav | mfhi | mflo =>
      cases h
      exact reg_zero_of_store hs rfl
  | lb | lh | lwl | lw | lbu | lhu | lwr | ll =>
      obtain ⟨v, hv, h⟩ := bind_eq_ok.mp h
      cases h
      exact reg_zero_of_store hs
        (congrArg (fun x : Except Fault U32 => x.toOption.map (rt cir, ·)) hv)
  | sb | sh | swl | sw | swr =>
      obtain ⟨memory, -, h⟩ := bind_eq_ok.mp h
      cases h
      exact reg_zero_of_none hs rfl rfl
  | sc =>
      obtain ⟨u, hu, h⟩ := bind_eq_ok.mp h
      obtain ⟨memory, -, hu⟩ := bind_eq_ok.mp hu
      cases hu
      cases h
      exact reg_zero_of_store hs rfl
  | brk => cases h
  | syscall =>
      refine reg_zero_of_none hs ?_ rfl
      exact itpSyscallImpl_reg h (by decide) (by decide) (by decide)
  | special =>
      cases h
      exact reg_zero_of_none hs rfl rfl
  | mthi | mtlo =>
      cases h
      exact reg_zero_of_none hs (reg_setReg_of_ne (by decide) _ _) rfl
  | mult | multu | div | divu =>
      cases h
      refine reg_zero_of_none hs ?_ rfl
      exact (reg_setReg_of_ne (by decide) _ _).trans (reg_setReg_of_ne (by decide) _ _)

end Handler

/-! ### Runs -/

/-- One step of any engine. -/
theorem engine_step_zero {host : Host} (engine : Engine) {st st' : engine.State}
    (hs : (engine.machine st).reg MIPS_R_ZERO = 0)
    (h : (engine.interpreter host).step st = .ok st') :
    (engine.machine st').reg MIPS_R_ZERO = 0 ↔
      ∀ w, engine.executing st = some w → StoresZero w (engine.machine st) := by
  have hstep := engine_step engine h
  cases hw : engine.executing st with
  | none =>
      rw [hw] at hstep
      obtain ⟨p, hp⟩ := hstep
      rw [hp, reg_zero_withPipe]
      constructor
      · -- Nothing is executed, and the pipe does not hold register zero.
        intro _ w hw'
        cases hw'
      · intro _
        exact hs
  | some w =>
      rw [hw] at hstep
      obtain ⟨t, p, ht, hp⟩ := hstep
      rw [hp, reg_zero_withPipe, execute_reg_zero hs ht]
      constructor
      · intro hzero w' hw'
        cases hw'
        exact hzero
      · intro hall
        exact hall w rfl

/-- Register 0 along a run of any engine, from a machine with zero there: it is zero in
every state of the run exactly when every instruction of the run that names it as its
destination stores zero. -/
theorem registerZero_iff (engine : Engine) (host : Host) (s : Machine)
    (hs : s.reg MIPS_R_ZERO = 0) (visited : List engine.State) (t : engine.State)
    (h : (engine.interpreter host).Run visited (engine.start s) t) :
    (∀ v ∈ visited ++ [t], (engine.machine v).reg MIPS_R_ZERO = 0) ↔
      ∀ v ∈ visited, ∀ w, engine.executing v = some w → StoresZero w (engine.machine v) := by
  have hstart : (engine.machine (engine.start s)).reg MIPS_R_ZERO = 0 := by
    cases engine <;> exact hs
  generalize engine.start s = st at h hstart
  induction h with
  | refl st => simpa using hstart
  | @head st st' t visited hdone hstep hrun ih =>
      have hone := engine_step_zero engine hstart hstep
      constructor
      · intro hall
        have hrest : ∀ v ∈ visited ++ [t], (engine.machine v).reg MIPS_R_ZERO = 0 :=
          fun v hv => hall v (List.mem_cons_of_mem _ hv)
        -- The next state is in the rest of the run.
        have hst' : (engine.machine st').reg MIPS_R_ZERO = 0 := by
          refine hrest st' ?_
          cases hrun with
          | refl => simp
          | head => simp
        intro v hv
        rcases List.mem_cons.mp hv with rfl | hv
        · exact hone.mp hst'
        · exact (ih hst').mp hrest v hv
      · intro hall
        have hst' := hone.mpr (hall st (List.mem_cons_self))
        intro v hv
        rcases List.mem_cons.mp hv with rfl | hv
        · exact hstart
        · exact (ih hst').mpr (fun v hv => hall v (List.mem_cons_of_mem _ hv)) v hv

/-- A `NOP`, which stores zero in register 0, then a load of a constant in register 2, on the goto
engine. -/
theorem registerZero_iff_program :
    ∃ visited t, ((Engine.computedGoto).interpreter failingHost).Run visited
        ((Engine.computedGoto).start (program 0x400000 [0, 0x24020005])) t ∧
      t.machine.reg MIPS_R_V0 = 5 ∧ ∀ v ∈ visited ++ [t], v.machine.reg MIPS_R_ZERO = 0 := by
  -- The run to the constant, unless an instruction stores something else before.
  obtain ⟨t, ht, hfive⟩ := okWith_eq_true.mp (show okWith (fun t => t.machine.reg MIPS_R_V0 == 5)
    (((Engine.computedGoto).interpreter failingHost).execUntil
      (fun v => v.machine.reg MIPS_R_V0 == 5 ||
        !((Engine.computedGoto).executing v).all fun w => decide (StoresZero w v.machine)) 8
      ((Engine.computedGoto).start (program 0x400000 [0, 0x24020005]))) = true by decide +kernel)
  obtain ⟨visited, hrun, hnot⟩ := run_of_execUntil ht
  have hstores : ∀ v ∈ visited, ∀ w, (Engine.computedGoto).executing v = some w →
      StoresZero w v.machine := by
    intro v hv w hw
    have hv := hnot v hv
    simpa [hw] using (Bool.or_eq_false_iff.mp hv).2
  exact ⟨visited, t, hrun, eq_of_beq hfive,
    (registerZero_iff .computedGoto failingHost _ rfl visited t hrun).mpr hstores⟩

/-- An addition of 1 to register 0, into register 0, then a branch and its delay slot. -/
abbrev writesZero : Machine := program 0x400000 [0x24000001, 0x10000000, 0]

theorem reaches_nonzero (engine : Engine) :
    ∃ t, (engine.interpreter failingHost).Reaches (engine.start writesZero) t ∧
      (engine.machine t).reg MIPS_R_ZERO = 1 := by
  have hexec : ∃ n, okWith (fun t => (engine.machine t).reg MIPS_R_ZERO == 1)
      ((engine.interpreter failingHost).exec n (engine.start writesZero)) = true := by
    cases engine with
    | switch => exact ⟨1, by decide +kernel⟩
    | computedGoto => exact ⟨2, by decide +kernel⟩
    | tailCall => exact ⟨2, by decide +kernel⟩
    | blocked => exact ⟨3, by decide +kernel⟩
  obtain ⟨n, hn⟩ := hexec
  obtain ⟨t, ht, hone⟩ := okWith_eq_true.mp hn
  exact ⟨t, reaches_of_exec ht, by simpa using hone⟩

/-- From zero, every engine gets to a state with 1 in register 0. -/
theorem registerZero_written :
    writesZero.reg MIPS_R_ZERO = 0 ∧
      (∃ t, (interpreterSwitch failingHost).Reaches writesZero t ∧ t.reg MIPS_R_ZERO = 1) ∧
      (∃ t, (interpreterComputedGoto failingHost).Reaches ⟨.dispatch, writesZero⟩ t ∧
        t.machine.reg MIPS_R_ZERO = 1) ∧
      (∃ t, (interpreterTailCall failingHost).Reaches ⟨.entry, writesZero⟩ t ∧
        t.machine.reg MIPS_R_ZERO = 1) ∧
      ∃ t, (interpreterBlocked failingHost).Reaches (.start writesZero) t ∧
        t.machine.reg MIPS_R_ZERO = 1 :=
  ⟨rfl, reaches_nonzero .switch, reaches_nonzero .computedGoto, reaches_nonzero .tailCall,
    reaches_nonzero .blocked⟩

end MipsEngines
