import MipsEngines.Proofs.Switch

/-!
# `MipsEngines.Proofs.ComputedGoto`: the goto engine runs in step with the switch

One round of the switch loop is one trip of the goto engine from a `DISPATCH` to the
next: through one label, or through `do_secondary` or `do_branch` and a label. The
trip passes exactly one label of an instruction (`goto_round`), so counting these
labels counts instructions.

`computedGoto_lockstep` is the result over whole runs: after `n` instructions the two
engines hold the same machine, and the goto engine returns after exactly those `n`
at which the switch loop exits.
-/

set_option autoImplicit false

namespace MipsEngines

open Lib StepMachine

variable (host : Host)

/-- The jumps between the first array and the label of the instruction. -/
theorem goto_follow {l : Label} {cir : U32} {i : Instr} (s : Machine)
    (h : l.follow cir = .ok i) :
    ∃ ws, (interpreterComputedGoto host).Run ws ⟨.label l cir, s⟩ ⟨.label (.instr i) cir, s⟩ ∧
      ws.countP GotoState.atInstr = 0 := by
  cases l with
  | instr _ => cases h; exact ⟨[], .refl _, rfl⟩
  | secondary =>
      refine ⟨_, .single rfl ?_, rfl⟩
      show (jumpThrough secondary (fnField cir) >>= _) = _
      rw [show jumpThrough secondary (fnField cir) = .ok i from h]
      rfl
  | branch =>
      refine ⟨_, .single rfl ?_, rfl⟩
      show (jumpThrough branch (rtField cir) >>= _) = _
      rw [show jumpThrough branch (rtField cir) = .ok i from h]
      rfl

/-- The second jump fails as the array does. -/
theorem goto_follow_error {l : Label} {cir : U32} {e : Fault} (s : Machine)
    (h : l.follow cir = .error e) :
    (interpreterComputedGoto host).FaultsAt ⟨.label l cir, s⟩ ⟨.label l cir, s⟩ e := by
  cases l with
  | instr _ => cases h
  | secondary =>
      refine ⟨.refl _, rfl, ?_⟩
      show (jumpThrough secondary (fnField cir) >>= _) = _
      rw [show jumpThrough secondary (fnField cir) = .error e from h]
      rfl
  | branch =>
      refine ⟨.refl _, rfl, ?_⟩
      show (jumpThrough branch (rtField cir) >>= _) = _
      rw [show jumpThrough branch (rtField cir) = .error e from h]
      rfl

/-- From a `DISPATCH` with the machine running, a fetched word and its first jump. -/
theorem goto_dispatch {s : Machine} {cir : U32} {l : Label} (hhalt : s.mips.halted = false)
    (hcir : fetch s = .ok cir) (hl : jumpThrough primary (opField cir) = .ok l) :
    (interpreterComputedGoto host).step ⟨.dispatch, s⟩ = .ok ⟨.label l cir, s⟩ := by
  show (if s.mips.halted = true then _ else _) = _
  rw [hhalt, if_neg (by decide), hcir, ok_bind, hl]
  rfl

/-- A supported word takes the goto engine from a `DISPATCH` to its label. -/
theorem goto_to_label {s : Machine} {cir : U32} {i : Instr} (hhalt : s.mips.halted = false)
    (hcir : fetch s = .ok cir) (hi : switchDispatch cir = some i) :
    ∃ ws, (interpreterComputedGoto host).Run ws ⟨.dispatch, s⟩ ⟨.label (.instr i) cir, s⟩ ∧
      ws.countP GotoState.atInstr = 0 := by
  obtain ⟨l, hl, hfollow⟩ := bind_eq_ok.mp (tableDispatch_eq_ok_iff.mpr hi)
  obtain ⟨ws, hws, hcount⟩ := goto_follow host s hfollow
  exact ⟨_, .head rfl (goto_dispatch host hhalt hcir hl) hws, by simpa [GotoState.atInstr] using hcount⟩

/-- One round of the switch loop, as a trip from `DISPATCH` to `DISPATCH`. -/
theorem goto_round {s s' : Machine} (hhalt : s.mips.halted = false)
    (h : switchStep host s = .ok s') :
    ∃ ws, (interpreterComputedGoto host).Run ws ⟨.dispatch, s⟩ ⟨.dispatch, s'⟩ ∧
      ws.countP GotoState.atInstr = 1 := by
  obtain ⟨cir, i, t, hcir, hi, ht, rfl⟩ := switchStep_eq_ok.mp h
  obtain ⟨ws, hws, hcount⟩ := goto_to_label host hhalt hcir hi
  refine ⟨_, hws.snoc rfl ?_, by rw [List.countP_append, hcount]; rfl⟩
  show (execute host i cir s >>= _) = _
  rw [ht]
  rfl

/-- The step from a `DISPATCH` with the machine running. -/
theorem goto_step_dispatch {s : Machine} (hhalt : s.mips.halted = false) :
    (interpreterComputedGoto host).step ⟨.dispatch, s⟩
      = (do let cir ← fetch s; let l ← jumpThrough primary (opField cir)
            return ⟨.label l cir, s⟩) := by
  show (if s.mips.halted = true then _ else _) = _
  rw [hhalt, if_neg (by decide)]

/-- Where the switch takes a `default` arm, one of the two jumps goes through a gap or past an
array's end. -/
theorem goto_unsupported {s : Machine} {cir : U32} (hhalt : s.mips.halted = false)
    (hcir : fetch s = .ok cir) (hi : switchDispatch cir = none) :
    ∃ g e, (interpreterComputedGoto host).FaultsAt ⟨.dispatch, s⟩ g e ∧ g.machine = s ∧
      (e = .emptyEntry ∨ e = .outOfRange) := by
  have hstep := goto_step_dispatch host hhalt
  obtain ⟨e, he⟩ := tableDispatch_error_of_none hi
  have hjump := tableDispatch_error he
  unfold tableDispatch at he
  rcases bind_eq_error.mp he with hl | ⟨l, hl, he⟩
  · exact ⟨_, e, ⟨.refl _, rfl, by rw [hstep, hcir, ok_bind, hl]; rfl⟩, rfl, hjump⟩
  · have hfault := goto_follow_error host s he
    have hfirst := Run.single rfl (goto_dispatch host hhalt hcir hl)
    exact ⟨_, e, hfault.of_reaches ⟨_, hfirst⟩, rfl, hjump⟩

/-- Where the switch loop fails, the goto engine fails too. -/
theorem goto_faults_of_error {s : Machine} {e : Fault} (hhalt : s.mips.halted = false)
    (h : switchStep host s = .error e) :
    ∃ e', (interpreterComputedGoto host).Faults ⟨.dispatch, s⟩ e' := by
  have hstep := goto_step_dispatch host hhalt
  rcases switchStep_eq_error h with hcir | ⟨cir, hcir, hi, -⟩ | ⟨cir, i, hcir, hi, ht⟩
  · exact ⟨e, _, .refl _, rfl, by rw [hstep, hcir]; rfl⟩
  · obtain ⟨_, e', hfault, -, -⟩ := goto_unsupported host hhalt hcir hi
    exact ⟨e', hfault.faults⟩
  · obtain ⟨ws, hws, -⟩ := goto_to_label host hhalt hcir hi
    refine ⟨e, _, ⟨ws, hws⟩, rfl, ?_⟩
    show (execute host i cir s >>= _) = _
    rw [ht]
    rfl

/-- A halted machine returns from its `DISPATCH`, and only a halted machine returns
without passing the label of an instruction. -/
theorem goto_returns_iff (s : Machine) :
    s.mips.halted = true ↔
      ∃ ws, (interpreterComputedGoto host).Run ws ⟨.dispatch, s⟩ ⟨.returned, s⟩ ∧
        ws.countP GotoState.atInstr = 0 := by
  constructor
  · intro hhalt
    refine ⟨_, .single rfl ?_, rfl⟩
    show (if s.mips.halted = true then _ else _) = _
    rw [if_pos hhalt]
  · rintro ⟨ws, hws, hcount⟩
    by_contra hne
    have hhalt : s.mips.halted = false := by simpa using hne
    cases hstep : switchStep host s with
    | error e =>
        obtain ⟨e', hfault⟩ := goto_faults_of_error host hhalt hstep
        exact Returns.not_faults ⟨⟨ws, hws⟩, rfl⟩ hfault
    | ok s' =>
        -- A running machine comes back to `DISPATCH` only past a label.
        obtain ⟨us, hus, hone⟩ := goto_round host hhalt hstep
        obtain ⟨rest, -, rfl⟩ := hus.prefix_of_done hws rfl
        rw [List.countP_append, hone] at hcount
        omega

/-- The goto engine runs in step with the switch engine. Take any run of the switch
engine, of `visited.length` instructions, from `s` to `t`. The goto engine reaches
the same machine `t` after as many instructions. And it returns after that many
instructions exactly when the switch loop exits there. -/
theorem computedGoto_lockstep (host : Host) (s t : Machine) (visited : List Machine)
    (h : (interpreterSwitch host).Run visited s t) :
    (∃ ws, (interpreterComputedGoto host).Run ws ⟨.dispatch, s⟩ ⟨.dispatch, t⟩ ∧
      ws.countP GotoState.atInstr = visited.length) ∧
    ((interpreterSwitch host).done t = true ↔
      ∃ ws, (interpreterComputedGoto host).Run ws ⟨.dispatch, s⟩ ⟨.returned, t⟩ ∧
        ws.countP GotoState.atInstr = visited.length) := by
  -- The simulation relation: the goto engine is at a `DISPATCH` with the same machine.
  obtain ⟨ws, g, hws, hcount, rfl⟩ := h.simulate
    (N := interpreterComputedGoto host) (p := GotoState.atInstr)
    (R := fun s g => g = ⟨.dispatch, s⟩)
    (fun s s' g hg hdone hstep => by
      subst hg
      obtain ⟨as, has, hone⟩ := goto_round host hdone hstep
      exact ⟨as, _, has, hone, rfl⟩)
    (a := ⟨.dispatch, s⟩) rfl
  refine ⟨⟨ws, hws, hcount⟩, (goto_returns_iff host t).trans ?_⟩
  constructor
  · rintro ⟨us, hus, hzero⟩
    exact ⟨_, hws.append hus, by rw [List.countP_append, hcount, hzero, Nat.add_zero]⟩
  · rintro ⟨us, hus, hus'⟩
    obtain ⟨rest, hrest, rfl⟩ := hws.prefix_of_done hus rfl
    rw [List.countP_append, hcount] at hus'
    exact ⟨rest, hrest, by omega⟩

/-- On a program that exits in its second word, the goto engine returns after two
instructions. -/
theorem computedGoto_lockstep_program :
    ∃ visited t,
      (interpreterSwitch failingHost).Run visited (program 0x400000 [0x24020fa1, 0xc]) t ∧
      ∃ ws, (interpreterComputedGoto failingHost).Run ws
          ⟨.dispatch, program 0x400000 [0x24020fa1, 0xc]⟩ ⟨.returned, t⟩ ∧
        ws.countP GotoState.atInstr = visited.length := by
  obtain ⟨t, ⟨⟨visited, hrun⟩, hdone⟩, -⟩ :=
    returns_of_exec (M := interpreterSwitch failingHost) (n := 2)
      (s := program 0x400000 [0x24020fa1, 0xc]) (p := fun _ => true) (by decide +kernel)
  exact ⟨visited, t, hrun,
    (computedGoto_lockstep failingHost _ t visited hrun).2.mp hdone⟩

end MipsEngines
