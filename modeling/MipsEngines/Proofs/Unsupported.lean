import MipsEngines.Proofs.ComputedGoto
import MipsEngines.Proofs.TailCall

/-!
# `MipsEngines.Proofs.Unsupported`: words that no engine supports

On a word without an opcode the switch engine takes a `default` arm, which aborts. The
arrays of the goto and the tail-call engine have no entry for such a word, and nothing looks
at the entry before it is used. So both engines get to the same word, and fail there in a
jump: through an empty entry, or past the end of an array (`unsupported_not_rejected`).
-/

set_option autoImplicit false

namespace MipsEngines

open Lib StepMachine

/-- The engine stops with an error, and not by a jump through an empty entry or past the end of
an array. -/
def Rejects {σ : Type} (M : StepMachine Fault σ) (s : σ) : Prop :=
  ∃ e, M.Faults s e ∧ e ≠ .emptyEntry ∧ e ≠ .outOfRange

/-- A failed jump is the only way such an engine stops. -/
theorem not_rejects {σ : Type} {M : StepMachine Fault σ} {s : σ} {e : Fault} (h : M.Faults s e)
    (hjump : e = .emptyEntry ∨ e = .outOfRange) : ¬ Rejects M s := by
  obtain ⟨t, hreaches, hrunning, herr⟩ := h
  rintro ⟨e', ⟨u, hreaches', hrunning', herr'⟩, hempty, hrange⟩
  have hone : M.FaultsAt s t e := ⟨hreaches, hrunning, herr⟩
  obtain ⟨-, rfl⟩ := hone.unique ⟨hreaches', hrunning', herr'⟩
  rcases hjump with hjump | hjump
  · exact hempty hjump
  · exact hrange hjump

/-- A `default` arm of the switch. -/
theorem switch_unsupported (host : Host) {s : Machine} {cir : U32} (hhalt : s.mips.halted = false)
    (hcir : fetch s = .ok cir) (hi : switchDispatch cir = none) :
    (interpreterSwitch host).FaultsAt s s .abort := by
  refine ⟨.refl s, hhalt, ?_⟩
  show (fetch s >>= _) = _
  rw [hcir, ok_bind, hi]

/-- Wherever the switch engine takes a `default` arm, the other two get to the same word, and
neither rejects it: it is dispatched through an empty entry or past the end of an array. -/
theorem unsupported_not_rejected (host : Host) (s t : Machine)
    (hreaches : (interpreterSwitch host).Reaches s t) (hhalt : t.mips.halted = false) (cir : U32)
    (hcir : fetch t = .ok cir) (hi : switchDispatch cir = none) :
    Rejects (interpreterSwitch host) s ∧
    (∃ g e, (interpreterComputedGoto host).FaultsAt ⟨.dispatch, s⟩ g e ∧ g.machine = t ∧
      (e = .emptyEntry ∨ e = .outOfRange)) ∧
    (∃ c d e, (interpreterTailCall host).Reaches ⟨.entry, s⟩ c ∧
      (interpreterTailCall host).step c = tailDispatch t ∧
      (interpreterTailCall host).FaultsAt c d e ∧ (e = .emptyEntry ∨ e = .outOfRange)) ∧
    ¬ Rejects (interpreterComputedGoto host) ⟨.dispatch, s⟩ ∧
    ¬ Rejects (interpreterTailCall host) ⟨.entry, s⟩ := by
  obtain ⟨vs, hvs⟩ := hreaches
  have hswitch := (switch_unsupported host hhalt hcir hi).of_reaches ⟨vs, hvs⟩
  -- The goto engine is at a `DISPATCH` with the machine `t`.
  obtain ⟨⟨ws, hws, -⟩, -⟩ := computedGoto_lockstep host s t vs hvs
  obtain ⟨g, e, hgoto, hmachine, hjump⟩ := goto_unsupported host hhalt hcir hi
  have hgoto' := hgoto.of_reaches ⟨ws, hws⟩
  -- The tail-call engine is about to dispatch the word of `t`.
  obtain ⟨c, hc, hdone, hstep⟩ := tail_along hvs (c := ⟨.entry, s⟩) rfl rfl
  obtain ⟨d, e', htail, hjump'⟩ := tail_unsupported hdone hstep hcir hi
  refine ⟨⟨.abort, hswitch.faults, by decide, by decide⟩, ⟨g, e, hgoto', hmachine, hjump⟩,
    ⟨c, d, e', hc, hstep, htail, hjump'⟩, not_rejects hgoto'.faults hjump, ?_⟩
  exact not_rejects (htail.of_reaches hc).faults hjump'

/-- A word that the arrays end before, after a load of a constant. -/
abbrev unsupportedProgram : Machine := program 0x400000 [0x24020005, 0xfc000000]

theorem unsupported_not_rejected_program :
    ¬ Rejects (interpreterComputedGoto failingHost) ⟨.dispatch, unsupportedProgram⟩ := by
  have hcheck : okWith (fun t => !t.mips.halted &&
      okWith (fun cir => switchDispatch cir == none) (fetch t))
        ((interpreterSwitch failingHost).exec 1 unsupportedProgram) = true := by decide +kernel
  obtain ⟨t, ht, hcheck⟩ := okWith_eq_true.mp hcheck
  obtain ⟨hhalt, hcheck⟩ := Bool.and_eq_true_iff.mp hcheck
  obtain ⟨cir, hcir, hi⟩ := okWith_eq_true.mp hcheck
  exact (unsupported_not_rejected failingHost unsupportedProgram t (reaches_of_exec ht)
    (by simpa using hhalt) cir hcir (eq_of_beq hi)).2.2.2.1

/-- The switch engine aborts, the others read past the end of `primary`. -/
theorem unsupported_out_of_range :
    (interpreterSwitch failingHost).Faults unsupportedProgram .abort ∧
      (interpreterComputedGoto failingHost).Faults ⟨.dispatch, unsupportedProgram⟩ .outOfRange ∧
      ¬ Rejects (interpreterComputedGoto failingHost) ⟨.dispatch, unsupportedProgram⟩ ∧
      (interpreterTailCall failingHost).Faults ⟨.entry, unsupportedProgram⟩ .outOfRange ∧
      ¬ Rejects (interpreterTailCall failingHost) ⟨.entry, unsupportedProgram⟩ := by
  have hswitch : (interpreterSwitch failingHost).Faults unsupportedProgram .abort :=
    faults_of_exec (n := 2) rfl
  have hgoto : (interpreterComputedGoto failingHost).Faults ⟨.dispatch, unsupportedProgram⟩
      .outOfRange := faults_of_exec (n := 3) rfl
  have htail : (interpreterTailCall failingHost).Faults ⟨.entry, unsupportedProgram⟩ .outOfRange :=
    faults_of_exec (n := 3) rfl
  exact ⟨hswitch, hgoto, not_rejects hgoto (.inr rfl), htail, not_rejects htail (.inr rfl)⟩

end MipsEngines
