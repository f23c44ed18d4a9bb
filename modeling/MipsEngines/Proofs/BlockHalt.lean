import Mathlib.Data.Nat.Find
import MipsEngines.Proofs.BlockSimulation

/-!
# `MipsEngines.Proofs.BlockHalt`: the block engine and the exit call

The unrolled loop looks at `halted` only between blocks, and a block goes on past a
system call to the next control transfer. So the block engine stops right at the exit
only if the exit is the last op of its block, in the delay slot of a control transfer.
`blocked_halts_alike_iff` says that this is exactly when the two engines agree.
`blocked_runs_on` is a program where they do not.
-/

set_option autoImplicit false

namespace MipsEngines

open Lib StepMachine

/-- The block engine returns as the switch engine does after `n` instructions: it calls no
op on a halted machine, so makes no host call after the exit, and returns with the
same registers, status, guest memory and host calls. -/
def HaltsAlike (host : Host) (m : Nat → Machine) (n : Nat) : Prop :=
  ∃ ws f, (interpreterBlocked host).Run ws (.start (m 0)) f ∧
    (interpreterBlocked host).done f = true ∧
    (∀ w ∈ ws, w.atOp = true → w.machine.mips.halted = false) ∧
    (∀ i : Reg, i.val < 34 → f.machine.reg i = (m n).reg i) ∧
    f.machine.mips.status = (m n).mips.status ∧ f.machine.memory = (m n).memory ∧
    f.machine.calls = (m n).calls

/-- The last of `n` instructions is in the delay slot of a control transfer, or there is none. -/
def ExitInDelaySlot (m : Nat → Machine) (n : Nat) : Prop :=
  n = 0 ∨ ∃ c, c + 2 = n ∧ atControl (m c) = true

/-! ### The last block of a run -/

/-- A run is complete blocks, and then a stretch with no control transfer before its last
instruction. -/
theorem exists_firstBlocks (m : Nat → Machine) (n : Nat) :
    ∃ k t, FirstBlocks m k t ∧ t ≤ n ∧
      ∀ j, t ≤ j → j + 1 < n → atControl (m j) = false := by
  -- From the end of any complete block there is one more block, or no control transfer.
  have hfrom : ∀ r k t, FirstBlocks m k t → t + r = n → ∃ k t, FirstBlocks m k t ∧ t ≤ n ∧
      ∀ j, t ≤ j → j + 1 < n → atControl (m j) = false := by
    intro r
    induction r using Nat.strong_induction_on with
    | _ r ih =>
        intro k t hfirst hr
        by_cases hnone : ∀ j, t ≤ j → j + 1 < n → atControl (m j) = false
        · exact ⟨k, t, hfirst, by omega, hnone⟩
        · have hsome : ∃ j, t ≤ j ∧ j + 1 < n ∧ atControl (m j) = true := by
            by_contra hno
            refine hnone fun j hj hjn => ?_
            by_contra hne
            exact hno ⟨j, hj, hjn, by simpa using hne⟩
          classical
          obtain ⟨hle, hlt, hcontrol⟩ := Nat.find_spec hsome
          have hplain : ∀ j, t ≤ j → j < Nat.find hsome → atControl (m j) = false := by
            intro j hj hjc
            by_contra hne
            exact Nat.find_min hsome hjc ⟨hj, by omega, by simpa using hne⟩
          exact ih (n - (Nat.find hsome + 2)) (by omega) (k + 1) _
            (.succ hfirst hle hplain hcontrol) (by omega)
  exact hfrom n 0 0 .zero (by omega)

/-- A run whose last instruction is in a delay slot is made of complete blocks. -/
theorem CleanRun.firstBlocks_of_delaySlot {host : Host} {m : Nat → Machine} {n : Nat}
    (h : CleanRun host m n) (hexit : ExitInDelaySlot m n) : ∃ k, FirstBlocks m k n := by
  rcases hexit with rfl | ⟨c, rfl, hcontrol⟩
  · exact ⟨0, .zero⟩
  · obtain ⟨k, t, hfirst, ht, hplain⟩ := exists_firstBlocks m (c + 2)
    have htc : c < t := by
      by_contra hge
      rw [hplain c (by omega) (by omega)] at hcontrol
      cases hcontrol
    rcases Nat.lt_or_ge t (c + 2) with hlt | hge
    · -- The control transfer would be in the delay slot of the one before it.
      have htc1 : t = c + 1 := by omega
      subst htc1
      cases hfirst with
      | @succ k t' c' first hle plain hcontrol' =>
          rw [h.delay c' (by omega) hcontrol'] at hcontrol
          cases hcontrol
    · have heq : t = c + 2 := by omega
      exact ⟨k, heq ▸ hfirst⟩

/-- A control transfer does not halt the machine. -/
theorem atControl_of_halts {host : Host} {s s' : Machine} (h : switchStep host s = .ok s')
    (hs : s.mips.halted = false) (hs' : s'.mips.halted = true) : atControl s = false := by
  obtain ⟨w, t, hw, ht, rfl⟩ := switchStep_currentWord h
  rw [atControl_eq hw]
  by_contra hne
  have hc : w.2.isControl = true := by simpa using hne
  rw [execute_control host hc] at ht
  cases ht
  have hlink : (link w.2 w.1 s).mips.halted = s.mips.halted := by
    unfold link
    cases linkRegister w.2 w.1 <;> rfl
  have hkeep : (link w.2 w.1 s).mips.halted = true := hs'
  rw [hlink, hs] at hkeep
  cases hkeep

section Halting

variable {host : Host} {m : Nat → Machine} {n : Nat}

/-- A block that starts with words of a run which are no control transfers goes on after them. -/
theorem Chain.prefix_of_plain {memory : Memory} {plain code : Code} :
    ∀ {pc : U32}, Chain false code → CodeAt memory pc code → CodeAt memory pc plain →
      (∀ v ∈ plain, v.2.isControl = false) →
      ∃ rest, code = plain ++ rest ∧ Chain false rest := by
  induction plain generalizing code with
  | nil => intro pc hchain _ _ _; exact ⟨code, rfl, hchain⟩
  | cons v plain ih =>
      intro pc hchain hcode hat hall
      cases hchain with
      | @control _ w code hc _ =>
          have hw : w = v := hcode.head_eq hat
          rw [hw, hall v List.mem_cons_self] at hc
          cases hc
      | @plain w code hc hrest =>
          have hw : w = v := hcode.head_eq hat
          obtain ⟨rest, rfl, hchain'⟩ :=
            ih hrest hcode.2.2 hat.2.2 fun u hu => hall u (List.mem_cons_of_mem _ hu)
          exact ⟨rest, by rw [hw]; rfl, hchain'⟩

/-- A block of the run at the program counter is still in memory. -/
theorem SwitchBlock.codeAt_pc (hclean : CleanRun host m n) {t' t : Nat} {code : Code}
    (hb : SwitchBlock m n t' code) (hle : t' ≤ t) (ht : t ≤ n)
    (hpc : (m t').reg MIPS_R_PC = (m t).reg MIPS_R_PC) :
    CodeAt (m t).memory ((m t).reg MIPS_R_PC) code := by
  rw [← hpc]
  exact hb.codeAt hclean hle ht

/-- Where the engine returns from a boundary of a running machine, it first gets to the head
of the inner loop, with a block whose code is in memory. -/
theorem head_block (hclean : CleanRun host m n) {t : Nat} {e : BlockedState}
    (h : AtBoundary host m n t e) (ht : t < n) {us : List BlockedState} {f : BlockedState}
    (hrun : (interpreterBlocked host).Run us e f) (hf : (interpreterBlocked host).done f = true) :
    ∃ ws q blocks previous b code,
      (interpreterBlocked host).Run ws e ⟨.inner q, blocks, previous, e.machine⟩ ∧
      blocks[q]? = some b ∧ b.address = e.machine.reg MIPS_R_PC ∧ b.Decoded code ∧
      CodeAt (m t).memory ((m t).reg MIPS_R_PC) code := by
  obtain ⟨control, blocks, previous, s⟩ := e
  rcases h.between with hcontrol | ⟨q, hcontrol⟩
  · cases hcontrol
    have hhalt : s.mips.halted = false := h.halted.trans (hclean.run.running t ht)
    -- The run goes on from the outer loop, so its step there succeeds.
    cases hrun with
    | refl => cases hf
    | @head _ g _ _ hdone hstep _ =>
        have hstep : blockedStep host ⟨.outer, blocks, previous, s⟩ = .ok g := hstep
        have hinv : BlockedInv g := blockedStep_inv h.inv hstep
        have hrun' : (interpreterBlocked host).Run _ _ g := .single hdone hstep
        obtain ⟨q, hcontrol, hmachine⟩ : ∃ q, g.control = .inner q ∧ g.machine = s := by
          rcases blockedStep_outer host previous s hhalt hstep with ⟨q, -, rfl⟩ | ⟨b, -, -, rfl⟩
          · exact ⟨q, rfl, rfl⟩
          · exact ⟨_, rfl, rfl⟩
        obtain ⟨control, blocks', previous', s'⟩ := g
        cases hcontrol
        cases hmachine
        obtain ⟨b, hq, haddr⟩ := hinv.control
        rcases h.block_of_step hstep hq with
          ⟨t', code, hb, hle, haddr', hcode⟩ | ⟨code, -, hcode, hat⟩
        · have hat := hb.codeAt_pc hclean hle (Nat.le_of_lt ht)
            (haddr'.symm.trans (haddr.trans h.pc))
          exact ⟨_, q, blocks', previous', b, code, hrun', hq, haddr, hcode, hat⟩
        · exact ⟨_, q, blocks', previous', b, code, hrun', hq, haddr, hcode, hat⟩
  · cases hcontrol
    obtain ⟨b, hq, haddr⟩ := h.inv.control
    obtain ⟨t', code, hb, hle, haddr', hcode⟩ := h.cached q b hq
    have hat := hb.codeAt_pc hclean hle (Nat.le_of_lt ht) (haddr'.symm.trans (haddr.trans h.pc))
    exact ⟨[], q, blocks, previous, b, code, .refl _, hq, haddr, hcode, hat⟩

/-- An exit before the control transfer of its block: the engine goes on to an op on the
halted machine. -/
theorem runs_on_of_plain (hclean : CleanRun host m n) (hhalt : (m n).mips.halted = true)
    {k t : Nat} (hfirst : FirstBlocks m k t) (ht : t < n)
    (hplain : ∀ j, t ≤ j → j < n → atControl (m j) = false) : ¬ HaltsAlike host m n := by
  rintro ⟨us, f, hrun, hdone, hops, -⟩
  obtain ⟨ws, e, hws, -, -, -, hbound⟩ := simulate_blocks hclean hfirst (Nat.le_of_lt ht)
  obtain ⟨rest, hrest, -⟩ := hws.prefix_of_done hrun hdone
  obtain ⟨vs, q, blocks, previous, b, code, hvs, hq, haddr, hcode, hat⟩ :=
    head_block hclean hbound ht hrest hdone
  obtain ⟨p, hmachine, hpc, -⟩ := hbound.machine
  -- The words up to the exit are the first ones of the block, and not all of them.
  obtain ⟨plain, hlen, hwords⟩ := hclean.run.words t (n - t) (by omega)
  have hallplain : ∀ v ∈ plain, v.2.isControl = false := by
    intro v hv
    obtain ⟨j, hj, rfl⟩ := List.getElem_of_mem hv
    rw [← atControl_eq (hwords j _ (List.getElem?_eq_getElem hj))]
    exact hplain (t + j) (by omega) (by omega)
  have hatplain := hclean.codeAt hfirst hwords (by omega)
    (fun i hi hlt => hplain i hi (by omega)) (Nat.le_refl t) (Nat.le_of_lt ht)
  obtain ⟨tail, rfl, htail⟩ := hcode.chain.prefix_of_plain hat hatplain hallplain
  have htailpos : 0 < tail.length := List.length_pos_of_ne_nil htail.ne_nil
  let before : Pipe := { p with pc := p.pc + 4 * (b.size - 3) }
  have hentry : (m (t + 0)).withPipe before = preIncrement b e.machine := by
    rw [hmachine, preIncrement_withPipe]
    rfl
  obtain ⟨xs, case, hxs, -, -, -⟩ := block_run_to (u := fun j => (m (t + j)).withPipe before)
    previous hq hcode.terminated hentry (j := plain.length) (by rw [List.length_append]; omega)
    fun j w hj hw => by
      rw [List.getElem?_append_left hj] at hw
      exact (plain_step (hclean.run.step (t + j) (by omega)) (hwords j w hw)
        (hallplain w (List.mem_of_getElem? hw))).2 before
  -- The run to that op is a first part of the whole run, so the op is called in it.
  obtain ⟨ys, hys, rfl⟩ := ((hws.append hvs).append hxs).prefix_of_done hrun hdone
  cases hys with
  | refl => cases hdone
  | head _ _ _ =>
      have hfalse := hops _ (List.mem_append_right _ (List.mem_cons_self)) rfl
      have heq : t + plain.length = n := by omega
      have htrue : ((m (t + plain.length)).withPipe before).mips.halted = true := by
        rw [heq]
        exact hhalt
      rw [show _ = false from hfalse] at htrue
      cases htrue

/-- On a run that halts, the block engine halts alike exactly when the exit is in the
delay slot of a control transfer (or the machine is halted from the start). -/
theorem blocked_halts_alike_iff (host : Host) (m : Nat → Machine) (n : Nat)
    (hclean : CleanRun host m n) (hhalt : (m n).mips.halted = true) :
    HaltsAlike host m n ↔ ExitInDelaySlot m n := by
  constructor
  · intro halike
    by_contra hexit
    obtain ⟨k, t, hfirst, ht, hplain⟩ := exists_firstBlocks m n
    have hpos : 0 < n := Nat.pos_of_ne_zero fun h0 => hexit (.inl h0)
    have hlt : t < n := by
      refine Nat.lt_of_le_of_ne ht fun heq => hexit ?_
      subst heq
      cases hfirst with
      | zero => exact .inl rfl
      | @succ _ _ c _ _ _ hcontrol => exact .inr ⟨c, rfl, hcontrol⟩
    refine runs_on_of_plain hclean hhalt hfirst hlt (fun j hj hjn => ?_) halike
    rcases Nat.lt_or_ge (j + 1) n with hlt' | hge
    · exact hplain j hj hlt'
    · -- The last instruction is the exit itself.
      have hlast : n = j + 1 := by omega
      subst hlast
      exact atControl_of_halts (hclean.run.step j (by omega)) (hclean.run.running j (by omega))
        hhalt
  · intro hexit
    obtain ⟨k, hfirst⟩ := hclean.firstBlocks_of_delaySlot hexit
    obtain ⟨ws, e, hws, -, -, hops, hbound⟩ := simulate_blocks hclean hfirst (Nat.le_refl n)
    have hguest := hbound.sameGuest
    have hehalt : e.machine.mips.halted = true := hbound.halted.trans hhalt
    have houter := hbound.outer hehalt
    obtain ⟨control, blocks, previous, s⟩ := e
    cases houter
    have hreturn : blockedStep host ⟨.outer, blocks, previous, s⟩
        = .ok ⟨.returned, blocks, previous, s⟩ := blockedStep_outer_halted host previous s hehalt
    refine ⟨_, _, hws.snoc rfl hreturn, rfl, ?_, hguest.reg, hguest.status, hguest.memory,
      hguest.calls⟩
    intro w hw hop
    rcases List.mem_append.mp hw with hw | hw
    · exact hops _ (mem_opMachines.mpr ⟨w, hw, hop, rfl⟩)
    · rw [List.mem_singleton.mp hw] at hop
      cases hop

end Halting

/-! ### Two programs -/

/-- An exit in the delay slot of a branch. -/
abbrev exitInDelaySlot : Machine := program 0x400000 [0x24020fa1, 0x10000000, 0xc]

theorem blocked_halts_alike_program :
    HaltsAlike failingHost (runStates failingHost exitInDelaySlot) 3 := by
  have hclean : CleanRun failingHost (runStates failingHost exitInDelaySlot) 3 :=
    cleanRun_runStates (by decide +kernel) (by decide +kernel) ⟨rfl, rfl⟩ (by decide +kernel)
      fun u hu => match u, hu with
        | 0, _ => rfl
        | 1, _ => rfl
        | 2, _ => rfl
  exact (blocked_halts_alike_iff failingHost _ 3 hclean (by decide +kernel)).mpr
    (.inr ⟨1, rfl, by decide +kernel⟩)

/-- An exit followed, in the same block, by an addition, a branch and its delay slot. -/
abbrev exitInBody : Machine :=
  program 0x400000 [0x24020fa1, 0xc, 0x24030007, 0x10000000, 0]

/-- The block engine runs the addition after the exit: it returns with 7 in the register
where the switch engine has 0. -/
theorem blocked_runs_on :
    CleanRun failingHost (runStates failingHost exitInBody) 2 ∧
      (runStates failingHost exitInBody 2).mips.halted = true ∧
      ¬ HaltsAlike failingHost (runStates failingHost exitInBody) 2 := by
  have hclean : CleanRun failingHost (runStates failingHost exitInBody) 2 :=
    cleanRun_runStates (by decide +kernel) (by decide +kernel) ⟨rfl, rfl⟩ (by decide +kernel)
      fun u hu => match u, hu with
        | 0, _ => rfl
        | 1, _ => rfl
  refine ⟨hclean, by decide +kernel, ?_⟩
  rintro ⟨ws, f, hrun, hdone, -, hreg, -⟩
  obtain ⟨g, hg, hseven⟩ := returns_of_exec (M := interpreterBlocked failingHost) (n := 20)
    (s := .start exitInBody) (p := fun e => e.machine.reg 3 == 7) (by decide +kernel)
  have heq : f = g := Returns.unique ⟨⟨ws, hrun⟩, hdone⟩ hg
  subst heq
  have hzero : (runStates failingHost exitInBody 2).reg 3 = 0 := by decide +kernel
  rw [hreg 3 (by decide), hzero] at hseven
  cases hseven

end MipsEngines
