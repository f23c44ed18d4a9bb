import MipsEngines.Model.LoadDelay
import MipsEngines.Proofs.Operands
import MipsEngines.Proofs.SwitchBlocks

/-!
# `MipsEngines.Proofs.LoadDelay`: the switch engine built with `LOAD_DELAY_ENABLE`

A program without hazards does not use a loaded register in the next instruction, so
a delay of one instruction should make no difference to it. In this build it does: a load
fills `load_d` and `load_v`, and nothing ever moves them to the register, since
`ITP_LOAD_DELAY` is empty. The two builds agree on a run as long as every load finds in
memory what its register already holds (`load_delay_agrees`), whatever instruction comes
next. A load of anything else shows as soon as an instruction follows that is no load
and leaves the register alone (`load_lost`).
-/

set_option autoImplicit false

namespace MipsEngines

open Lib StepMachine

/-! ### What is compared -/

/-- The second build is in the same state, as far as a program can tell. -/
structure SameState (t : Machine) (d : DelayMachine) : Prop where
  gpr : ∀ n, d.machine.reg (gpr n) = t.reg (gpr n)
  hi : d.machine.reg MIPS_R_HI = t.reg MIPS_R_HI
  lo : d.machine.reg MIPS_R_LO = t.reg MIPS_R_LO
  pc : d.machine.reg MIPS_R_PC = t.reg MIPS_R_PC
  status : d.machine.mips.status = t.mips.status
  memory : d.machine.memory = t.memory

/-- Both builds get through their instructions, and to the same state, or both fail alike. -/
def SameOutcome : Except Fault Machine → Except Fault DelayMachine → Prop
  | .ok t, .ok d => SameState t d
  | .error e, .error e' => e = e'
  | _, _ => False

/-- The instruction at the program counter is a load. -/
def atLoad (s : Machine) : Bool := (currentWord s).any fun w => w.2.isLoad

/-- The instruction at the program counter is a load, and the one executed after it reads or
writes the register it loads. -/
def atHazard (host : Host) (s : Machine) : Bool :=
  match currentWord s, (switchStep host s).toOption.bind currentWord with
  | some w, some next =>
      w.2.isLoad && (next.2.reads next.1 ++ next.2.writes next.1).contains (rt w.1)
  | _, _ => false

/-- Among the first `n` instructions from `s`, none uses a register loaded by the one before
it. -/
def HazardFree (host : Host) (s : Machine) (n : Nat) : Prop :=
  ∀ k, k + 1 < n → ∀ t, (interpreterSwitch host).exec k s = .ok t → t.mips.halted = false →
    atHazard host t = false

/-- The last of the first `n` instructions from `s` is not a load. -/
def LastNoLoad (host : Host) (s : Machine) (n : Nat) : Prop :=
  ∀ k, n = k + 1 → ∀ t, (interpreterSwitch host).exec k s = .ok t → t.mips.halted = false →
    atLoad t = false

/-- If the instruction at the program counter is a load, what it would store in its register
is there already. -/
def loadHolds (s : Machine) : Bool :=
  match currentWord s with
  | none => true
  | some (cir, i) =>
      match i.template with
      | .loadImm impl =>
          match impl s.memory (computeAddress cir s) (s.reg (rt cir)) with
          | .ok v => v == s.reg (rt cir)
          | .error _ => true
      | _ => true

theorem eq_of_loadHolds {s : Machine} {cir v : U32} {i : Instr}
    {impl : Memory → U32 → U32 → Except Fault U32} (h : loadHolds s = true)
    (hw : currentWord s = some (cir, i)) (himpl : i.template = .loadImm impl)
    (hread : impl s.memory (computeAddress cir s) (s.reg (rt cir)) = .ok v) :
    v = s.reg (rt cir) := by
  simpa [loadHolds, hw, himpl, hread] using h

theorem sameOutcome_of_map {x : Except Fault Machine} {y : Except Fault DelayMachine}
    (h : y.map DelayMachine.machine = x) : SameOutcome x y := by
  subst h
  cases y with
  | error e => rfl
  | ok d => exact ⟨fun _ => rfl, rfl, rfl, rfl, rfl, rfl⟩

/-! ### One instruction -/

/-- Where a whole word lies in one page, a read of half of it fails as a read of the word
does. -/
theorem memoryReadU16_inPage {β : Type} (memory : Memory) {a : U32} (b : β)
    (hpage : (pageOffset a).val + 4 ≤ PAGE_SIZE) :
    (memoryReadU16 memory a).map (fun _ => b) = (memoryReadU32 memory a).map (fun _ => b) := by
  have hhalf : (pageOffset a).val + 2 ≤ PAGE_SIZE := by omega
  unfold memoryReadU16 memoryReadU32
  cases memoryFindPage memory a with
  | error e => rfl
  | ok page => simp [hpage, hhalf]

theorem alignDown_inPage (a : U32) : (pageOffset (a &&& ~~~3)).val + 4 ≤ PAGE_SIZE := by
  rw [pageOffset_val, toNat_and_not_mask a 3 2 rfl]
  show _ + 4 ≤ 4096
  omega

section Instruction

variable {host : Host} {cir : U32} {d : DelayMachine}

/-- A load of this build leaves the machine as it is. So does the load of the other build, if
it stores what the register holds. -/
theorem typeLoadImmDelayed_machine {impl : Memory → U32 → U32 → Except Fault U32}
    (hholds : ∀ v, impl d.machine.memory (computeAddress cir d.machine) (d.machine.reg (rt cir))
      = .ok v → v = d.machine.reg (rt cir)) :
    (typeLoadImmDelayed cir d impl).map DelayMachine.machine = typeLoadImm cir d.machine impl := by
  simp only [typeLoadImmDelayed, typeLoadImm]
  cases hread : impl d.machine.memory (computeAddress cir d.machine)
      (d.machine.reg (rt cir)) with
  | error e => rfl
  | ok v =>
      rw [hholds v hread]
      simp only [ok_bind, pure_eq_ok, map_ok, Machine.setReg_reg]
      split_ifs <;> rfl

/-- The same for `LWL` and `LWR`, which read half of what they read in the other build. -/
theorem typeLoadImmTodo_machine {impl : Memory → U32 → U32 → Except Fault U32} {merge : U32 → U32}
    (himpl : impl d.machine.memory (computeAddress cir d.machine) (d.machine.reg (rt cir))
      = (memoryReadU32 d.machine.memory (computeAddress cir d.machine &&& ~~~3)).map merge)
    (hholds : ∀ v, impl d.machine.memory (computeAddress cir d.machine) (d.machine.reg (rt cir))
      = .ok v → v = d.machine.reg (rt cir)) :
    (typeLoadImmTodo cir d).map DelayMachine.machine = typeLoadImm cir d.machine impl := by
  -- The address is rounded down, so the word does not leave its page.
  have hhalf := memoryReadU16_inPage d.machine.memory d.machine
    (alignDown_inPage (computeAddress cir d.machine))
  simp only [typeLoadImmTodo, typeLoadImm]
  cases hword : memoryReadU32 d.machine.memory (computeAddress cir d.machine &&& ~~~3) with
  | error e =>
      rw [hword] at himpl hhalf
      rw [himpl]
      cases hread : memoryReadU16 d.machine.memory (computeAddress cir d.machine &&& ~~~3) with
      | error e' =>
          rw [hread] at hhalf
          exact hhalf
      | ok v =>
          rw [hread] at hhalf
          cases hhalf
  | ok w =>
      rw [hword] at himpl hhalf
      -- What the first build merges is what the register holds.
      rw [himpl, map_ok, ok_bind, hholds _ himpl, Machine.setReg_reg]
      cases hread : memoryReadU16 d.machine.memory (computeAddress cir d.machine &&& ~~~3) with
      | error e' =>
          rw [hread] at hhalf
          cases hhalf
      | ok v =>
          simp only [ok_bind, pure_eq_ok, map_ok]
          split_ifs <;> rfl

/-- A handler that is not a load is the same in both builds. -/
theorem executeDelayed_eq {i : Instr} (hi : i.isLoad = false) :
    executeDelayed host i cir d
      = (execute host i cir d.machine).map fun s => { d with machine := s } := by
  cases i with
  | lb | lh | lwl | lw | lbu | lhu | lwr | ll => cases hi
  | _ => rfl

/-- One handler, if a load stores what its register holds. -/
theorem executeDelayed_machine {i : Instr}
    (hholds : ∀ impl v, i.template = .loadImm impl →
      impl d.machine.memory (computeAddress cir d.machine) (d.machine.reg (rt cir)) = .ok v →
      v = d.machine.reg (rt cir)) :
    (executeDelayed host i cir d).map DelayMachine.machine = execute host i cir d.machine := by
  cases i with
  | lb | lh | lw | lbu | lhu | ll =>
      exact typeLoadImmDelayed_machine fun v hv => hholds _ v rfl hv
  | lwl | lwr => exact typeLoadImmTodo_machine rfl fun v hv => hholds _ v rfl hv
  | _ =>
      rw [executeDelayed_eq rfl]
      cases execute host _ cir d.machine <;> rfl

end Instruction

/-- One round of the loop. -/
theorem switchStepDelayed_machine (host : Host) {d : DelayMachine}
    (hholds : loadHolds d.machine = true) :
    (switchStepDelayed host d).map DelayMachine.machine = switchStep host d.machine := by
  unfold switchStepDelayed switchStep
  rw [map_bind]
  apply Lib.bind_congr
  intro cir hcir
  cases hi : switchDispatch cir with
  | none => rfl
  | some i =>
      have hw : currentWord d.machine = some (cir, i) := currentWord_eq_some.mpr ⟨hcir, hi⟩
      have hone : (executeDelayed host i cir d).map DelayMachine.machine
          = execute host i cir d.machine :=
        executeDelayed_machine fun impl v himpl hread => eq_of_loadHolds hholds hw himpl hread
      show ((executeDelayed host i cir d >>= _).map _) = (execute host i cir d.machine >>= _)
      rw [← hone, map_bind, bind_map]
      rfl

/-! ### Runs -/

/-- If every load of a run stores what its register already holds, the two builds agree after
every number of instructions, also when they fail. What follows a load makes no difference. -/
theorem load_delay_agrees (host : Host) (s : Machine) (loadD loadV : U32) (n : Nat)
    (hholds : ∀ k < n, ∀ t, (interpreterSwitch host).exec k s = .ok t →
      t.mips.halted = false → loadHolds t = true) :
    SameOutcome ((interpreterSwitch host).exec n s)
      ((interpreterSwitchDelayed host).exec n ⟨s, loadD, loadV⟩) := by
  apply sameOutcome_of_map
  exact exec_map (M := interpreterSwitch host) (N := interpreterSwitchDelayed host)
    DelayMachine.machine (fun _ => rfl) (fun d _ hd => switchStepDelayed_machine host hd) n
    ⟨s, loadD, loadV⟩ hholds

/-- `$t0` is set to 5, a 5 is loaded in it, and it is read right after the load. -/
abbrev loadsAgain : Machine := program 0 [0x24080005, 0x8c080010, 0x25090001, 0, 5]

theorem load_delay_agrees_loadsAgain :
    SameOutcome ((interpreterSwitch failingHost).exec 3 loadsAgain)
        ((interpreterSwitchDelayed failingHost).exec 3 ⟨loadsAgain, 0, 0⟩) ∧
      ∃ t, (interpreterSwitch failingHost).exec 3 loadsAgain = .ok t ∧
        t.reg MIPS_R_T0 = 5 ∧ t.reg MIPS_R_T1 = 6 := by
  have hchecks : ∀ k < 3, okWith loadHolds
      ((interpreterSwitch failingHost).exec k loadsAgain) = true := by
    decide +kernel
  constructor
  · apply load_delay_agrees
    intro k hk t ht _
    obtain ⟨t', ht', hholds⟩ := okWith_eq_true.mp (hchecks k hk)
    rw [ht] at ht'
    cases ht'
    exact hholds
  · obtain ⟨t, ht, hregs⟩ := okWith_eq_true.mp (show okWith (fun t =>
      decide (t.reg MIPS_R_T0 = 5 ∧ t.reg MIPS_R_T1 = 6))
      ((interpreterSwitch failingHost).exec 3 loadsAgain) = true by decide +kernel)
    exact ⟨t, ht, of_decide_eq_true hregs⟩

/-! ### A load of another value -/

/-- A load of this build changes nothing but `load_d` and `load_v`. -/
theorem machine_of_isLoad {host : Host} {i : Instr} {cir : U32} {d d' : DelayMachine}
    (hi : i.isLoad = true) (h : executeDelayed host i cir d = .ok d') :
    d'.machine = d.machine := by
  cases i with
  | lb | lh | lw | lbu | lhu | ll =>
      obtain ⟨read, -, h⟩ := bind_eq_ok.mp h
      cases h
      show (if _ then _ else _ : DelayMachine).machine = _
      split_ifs <;> rfl
  | lwl | lwr =>
      obtain ⟨read, -, h⟩ := bind_eq_ok.mp h
      cases h
      show (if _ then _ else _ : DelayMachine).machine = _
      split_ifs <;> rfl
  | _ => cases hi

/-- The word at the program counter depends on the memory and `PC`. -/
theorem currentWord_congr {s t : Machine} (hmemory : s.memory = t.memory)
    (hpc : s.reg MIPS_R_PC = t.reg MIPS_R_PC) : currentWord s = currentWord t := by
  unfold currentWord fetch
  rw [hmemory, hpc]

/-- A round of the loop that succeeds. -/
theorem switchStepDelayed_currentWord {host : Host} {d d' : DelayMachine}
    (h : switchStepDelayed host d = .ok d') :
    ∃ w e, currentWord d.machine = some w ∧ executeDelayed host w.2 w.1 d = .ok e ∧
      d'.machine = incrementPc e.machine := by
  obtain ⟨cir, hcir, h⟩ := bind_eq_ok.mp h
  cases hi : switchDispatch cir with
  | none => rw [hi] at h; cases h
  | some i =>
      rw [hi] at h
      obtain ⟨e, he, h⟩ := bind_eq_ok.mp h
      cases h
      exact ⟨(cir, i), e, currentWord_eq_some.mpr ⟨hcir, hi⟩, he, rfl⟩

/-- A register that the instruction does not write, after a round of the loop. -/
theorem switchStep_reg {host : Host} {s t : Machine} {w : U32 × Instr} {r : Reg}
    (h : switchStep host s = .ok t) (hw : currentWord s = some w) (hr : r.val < 34)
    (hfree : r ∉ w.2.writes w.1) : t.reg r = s.reg r := by
  obtain ⟨w', t', hw', ht', rfl⟩ := switchStep_currentWord h
  rw [hw] at hw'
  cases hw'
  rw [reg_incrementPc hr, execute_reg ht' hfree]

/-- The same in the second build, for an instruction that is no load. -/
theorem switchStepDelayed_reg {host : Host} {d d' : DelayMachine} {w : U32 × Instr} {r : Reg}
    (h : switchStepDelayed host d = .ok d') (hw : currentWord d.machine = some w)
    (hload : w.2.isLoad = false) (hr : r.val < 34) (hfree : r ∉ w.2.writes w.1) :
    d'.machine.reg r = d.machine.reg r := by
  obtain ⟨w', e, hw', he, hd'⟩ := switchStepDelayed_currentWord h
  rw [hw] at hw'
  cases hw'
  rw [executeDelayed_eq hload] at he
  cases hx : execute host w.2 w.1 d.machine with
  | error e' => rw [hx] at he; cases he
  | ok x =>
      rw [hx] at he
      cases he
      rw [hd', reg_incrementPc hr]
      exact execute_reg hx hfree

/-- A load of the second build moves the program counter only. -/
theorem switchStepDelayed_load {host : Host} {d d' : DelayMachine} {w : U32 × Instr}
    (h : switchStepDelayed host d = .ok d') (hw : currentWord d.machine = some w)
    (hload : w.2.isLoad = true) : d'.machine = incrementPc d.machine := by
  obtain ⟨w', e, hw', he, hd'⟩ := switchStepDelayed_currentWord h
  rw [hw] at hw'
  cases hw'
  rw [hd', machine_of_isLoad hload he]

/-- Where the builds still agree, take a load of a value that its register does not hold, and
after it an instruction that is no load and does not write the register. Then they differ: the
first build has the value in the register, the second one what was there before. -/
theorem load_lost (host : Host) {s t u : Machine} {loadD loadV cir v : U32} {i : Instr}
    {impl : Memory → U32 → U32 → Except Fault U32} {next : U32 × Instr}
    (hs : s.mips.halted = false) (ht : t.mips.halted = false)
    (hw : currentWord s = some (cir, i)) (himpl : i.template = .loadImm impl)
    (hread : impl s.memory (computeAddress cir s) (s.reg (rt cir)) = .ok v)
    (hv : v ≠ s.reg (rt cir)) (hstep : switchStep host s = .ok t)
    (hnext : currentWord t = some next) (hload : next.2.isLoad = false)
    (hfree : rt cir ∉ next.2.writes next.1) (hstep' : switchStep host t = .ok u) :
    ¬SameOutcome (.ok u) ((interpreterSwitchDelayed host).exec 2 ⟨s, loadD, loadV⟩) := by
  have hisLoad : i.isLoad = true := by
    cases i with
    | lb | lh | lwl | lw | lbu | lhu | lwr | ll => rfl
    | _ => cases himpl
  -- The load of the first build.
  have htload : t = incrementPc (s.setReg (rt cir) v) := by
    obtain ⟨w, t', hw', ht', rfl⟩ := switchStep_currentWord hstep
    rw [hw] at hw'
    cases hw'
    unfold execute at ht'
    rw [himpl] at ht'
    simp only [Template.run, typeLoadImm, hread, ok_bind, pure_eq_ok] at ht'
    cases ht'
    rfl
  have hu : u.reg (rt cir) = v := by
    rw [switchStep_reg hstep' hnext (rt_lt cir) hfree, htload, reg_incrementPc (rt_lt cir)]
    simp
  intro hsame
  cases hexec : (interpreterSwitchDelayed host).exec 2 ⟨s, loadD, loadV⟩ with
  | error e =>
      rw [hexec] at hsame
      exact hsame
  | ok d₂ =>
      rw [hexec] at hsame
      rw [exec, show (interpreterSwitchDelayed host).done ⟨s, loadD, loadV⟩ = false from hs,
        if_neg (by decide)] at hexec
      obtain ⟨d₁, hd₁, hexec⟩ := bind_eq_ok.mp hexec
      have hd₁load : d₁.machine = incrementPc s :=
        switchStepDelayed_load (d := ⟨s, loadD, loadV⟩) hd₁ hw hisLoad
      -- Both builds come to the same word, and neither is halted.
      have hpipe : (incrementPc s).memory = t.memory ∧
          (incrementPc s).reg MIPS_R_PC = t.reg MIPS_R_PC ∧
          (incrementPc s).mips.halted = t.mips.halted := by
        rw [htload, incrementPc_eq, incrementPc_eq, pipe_setReg (rt_lt cir)]
        simp
      have hword : currentWord d₁.machine = some next := by
        rw [hd₁load, ← hnext]
        exact currentWord_congr hpipe.1 hpipe.2.1
      have hrunning : d₁.machine.mips.halted = false := by rw [hd₁load, hpipe.2.2, ht]
      rw [exec, show (interpreterSwitchDelayed host).done d₁ = false from hrunning,
        if_neg (by decide)] at hexec
      obtain ⟨d, hd₂, hexec⟩ := bind_eq_ok.mp hexec
      cases hexec
      -- What the second build has in the register is what it started with.
      have hold : d₂.machine.reg (rt cir) = s.reg (rt cir) := by
        rw [switchStepDelayed_reg hd₂ hword hload (rt_lt cir) hfree, hd₁load,
          reg_incrementPc (rt_lt cir)]
      have hgpr : d₂.machine.reg (rt cir) = u.reg (rt cir) := hsame.gpr _
      rw [hold, hu] at hgpr
      exact hv hgpr.symm

/-- A load of the word at 0 in register 8, then a `NOP`. -/
abbrev loadProgram : Machine := program 0 [0x8c080000, 0]

/-- No hazard, and the last instruction is no load, but register 8 is set in one build only. -/
theorem load_never_commits :
    HazardFree failingHost loadProgram 2 ∧ LastNoLoad failingHost loadProgram 2 ∧
      ¬SameOutcome ((interpreterSwitch failingHost).exec 2 loadProgram)
        ((interpreterSwitchDelayed failingHost).exec 2 ⟨loadProgram, 0, 0⟩) := by
  refine ⟨?_, ?_, ?_⟩
  · intro k hk t ht _
    obtain rfl : k = 0 := by omega
    cases ht
    decide +kernel
  · intro k hk t ht _
    obtain rfl : k = 1 := by omega
    obtain ⟨t', ht', hload⟩ := okWith_eq_true.mp (show okWith (fun t => !atLoad t)
      ((interpreterSwitch failingHost).exec 1 loadProgram) = true by decide +kernel)
    rw [ht] at ht'
    cases ht'
    simpa using hload
  · obtain ⟨t, ht, hset⟩ := okWith_eq_true.mp (show okWith (fun t => t.reg (gpr 8) == 0x8c080000)
      ((interpreterSwitch failingHost).exec 2 loadProgram) = true by decide +kernel)
    obtain ⟨d, hd, hold⟩ := okWith_eq_true.mp (show okWith (fun d => d.machine.reg (gpr 8) == 0)
      ((interpreterSwitchDelayed failingHost).exec 2 ⟨loadProgram, 0, 0⟩) = true by
        decide +kernel)
    rw [ht, hd]
    intro hsame
    have hgpr := hsame.gpr 8
    rw [beq_iff_eq.mp hset, beq_iff_eq.mp hold] at hgpr
    exact absurd hgpr (by decide)

end MipsEngines
