import MipsEngines.Proofs.Switch

/-!
# `MipsEngines.Proofs.TailCall`: the tail-call engine and its last fetch

A handler of the tail-call engine runs its instruction, steps the program counter,
fetches the next word and calls through the arrays. `halted` is looked at by the
handler called. So the engine runs in step with the switch engine up to the halting
system call, and then fetches and dispatches one more word.

`tailCall_returns_iff` says what comes of that. On a run that halts, the tail-call
engine returns with the machine of the switch engine exactly when the word at the
final program counter can be read and is supported. `tailCall_overruns` is a program
for which it cannot: the system call is the last word of its page.
-/

set_option autoImplicit false

namespace MipsEngines

open Lib StepMachine

variable {host : Host}

/-- The word at the program counter can be read and is supported. -/
def NextWordSupported (s : Machine) : Prop :=
  ∃ cir i, fetch s = .ok cir ∧ switchDispatch cir = some i

/-- The calls between the first array and the handler of the instruction. -/
theorem tail_follow {l : Label} {cir : U32} {i : Instr} (s : Machine)
    (h : l.follow cir = .ok i) :
    (interpreterTailCall host).Reaches ⟨.call l cir, s⟩ ⟨.call (.instr i) cir, s⟩ := by
  cases l with
  | instr _ => cases h; exact .refl _
  | secondary =>
      refine ⟨_, .single rfl ?_⟩
      show (jumpThrough secondary (fnField cir) >>= _) = _
      rw [show jumpThrough secondary (fnField cir) = .ok i from h]
      rfl
  | branch =>
      refine ⟨_, .single rfl ?_⟩
      show (jumpThrough branch (rtField cir) >>= _) = _
      rw [show jumpThrough branch (rtField cir) = .ok i from h]
      rfl

/-- The second call fails as the array does. -/
theorem tail_follow_error {l : Label} {cir : U32} {e : Fault} (s : Machine)
    (h : l.follow cir = .error e) :
    (interpreterTailCall host).FaultsAt ⟨.call l cir, s⟩ ⟨.call l cir, s⟩ e := by
  cases l with
  | instr _ => cases h
  | secondary =>
      refine ⟨.refl _, rfl, ?_⟩
      show (jumpThrough secondary (fnField cir) >>= _) = _
      rw [show jumpThrough secondary (fnField cir) = .error e from h]
      rfl
  | branch =>
      refine ⟨.refl _, rfl, ?_⟩
      show (jumpThrough branch (rtField cir) >>= _) = _
      rw [show jumpThrough branch (rtField cir) = .error e from h]
      rfl

section Dispatching

/- `c` is about to dispatch the next word of `s`: at the entry of the interpreter, or at a
handler that runs its instruction and ends in `s`. -/
variable {c : TailState} {s : Machine} (hdone : (interpreterTailCall host).done c = false)
  (hstep : (interpreterTailCall host).step c = tailDispatch s)

include hdone hstep

/-- A supported word takes the engine to its handler. -/
theorem tail_to_handler {cir : U32} {i : Instr} (hcir : fetch s = .ok cir)
    (hi : switchDispatch cir = some i) :
    (interpreterTailCall host).Reaches c ⟨.call (.instr i) cir, s⟩ := by
  -- One call through `primary`, and one more if it leads to another array.
  obtain ⟨l, hl, hfollow⟩ := bind_eq_ok.mp (tableDispatch_eq_ok_iff.mpr hi)
  have hcall : (interpreterTailCall host).step c = .ok ⟨.call l cir, s⟩ := by
    rw [hstep, tailDispatch, hcir, ok_bind, hl]
    rfl
  exact .trans ⟨_, .single hdone hcall⟩ (tail_follow s hfollow)

/-- A word that the arrays do not have: a call goes through a gap or past an array's end, in
the handler that dispatches or in the next one. -/
theorem tail_unsupported {cir : U32} (hcir : fetch s = .ok cir) (hi : switchDispatch cir = none) :
    ∃ d e, (interpreterTailCall host).FaultsAt c d e ∧ (e = .emptyEntry ∨ e = .outOfRange) := by
  obtain ⟨e, he⟩ := tableDispatch_error_of_none hi
  have hjump := tableDispatch_error he
  unfold tableDispatch at he
  rcases bind_eq_error.mp he with hl | ⟨l, hl, he⟩
  · exact ⟨c, e, ⟨.refl c, hdone, by rw [hstep, tailDispatch, hcir, ok_bind, hl]; rfl⟩, hjump⟩
  · have hfault : (interpreterTailCall host).FaultsAt _ _ e := tail_follow_error s he
    have hcall : (interpreterTailCall host).step c = .ok ⟨.call l cir, s⟩ := by
      rw [hstep, tailDispatch, hcir, ok_bind, hl]
      rfl
    exact ⟨_, e, hfault.of_reaches ⟨_, .single hdone hcall⟩, hjump⟩

/-- A word that cannot be read, or that the arrays do not have, is a fault. -/
theorem tail_faults_of_unsupported (h : ¬ NextWordSupported s) :
    ∃ e, (interpreterTailCall host).Faults c e := by
  cases hcir : fetch s with
  | error e => exact ⟨e, c, .refl c, hdone, by rw [hstep, tailDispatch, hcir]; rfl⟩
  | ok cir =>
      have hnone : switchDispatch cir = none := by
        cases hi : switchDispatch cir with
        | none => rfl
        | some i => exact absurd ⟨cir, i, hcir, hi⟩ h
      obtain ⟨_, e, hfault, -⟩ := tail_unsupported hdone hstep hcir hnone
      exact ⟨e, hfault.faults⟩

/-- A halted machine: its next word is dispatched, and the handler returns. -/
theorem tail_returns_of_halted (hhalt : s.mips.halted = true) :
    (interpreterTailCall host).Returns c ⟨.returned, s⟩ ↔ NextWordSupported s := by
  constructor
  · intro hret
    by_contra hno
    obtain ⟨e, hfault⟩ := tail_faults_of_unsupported hdone hstep hno
    exact hret.not_faults hfault
  · rintro ⟨cir, i, hcir, hi⟩
    refine ⟨.trans (tail_to_handler hdone hstep hcir hi) ⟨_, .single rfl ?_⟩, rfl⟩
    show (if s.mips.halted = true then _ else _) = _
    rw [if_pos hhalt]

end Dispatching

/-- One round of the switch loop, from one dispatch of the tail-call engine to the
next. -/
theorem tail_round {c : TailState} {s s' : Machine}
    (hdone : (interpreterTailCall host).done c = false)
    (hstep : (interpreterTailCall host).step c = tailDispatch s)
    (hhalt : s.mips.halted = false) (h : switchStep host s = .ok s') :
    ∃ c', (interpreterTailCall host).Reaches c c' ∧
      (interpreterTailCall host).done c' = false ∧
      (interpreterTailCall host).step c' = tailDispatch s' := by
  obtain ⟨cir, i, t, hcir, hi, ht, rfl⟩ := switchStep_eq_ok.mp h
  -- At the handler, the next step runs it and dispatches the word after.
  refine ⟨_, tail_to_handler hdone hstep hcir hi, rfl, ?_⟩
  show (if s.mips.halted = true then _ else _) = _
  rw [hhalt, if_neg (by decide), ht]
  rfl

/-- Along a run of the switch engine, the tail-call engine gets to the dispatch of
the machine the run ends in. -/
theorem tail_along {vs : List Machine} {s t : Machine}
    (h : (interpreterSwitch host).Run vs s t) {c : TailState}
    (hdone : (interpreterTailCall host).done c = false)
    (hstep : (interpreterTailCall host).step c = tailDispatch s) :
    ∃ c', (interpreterTailCall host).Reaches c c' ∧
      (interpreterTailCall host).done c' = false ∧
      (interpreterTailCall host).step c' = tailDispatch t := by
  induction h generalizing c with
  | refl => exact ⟨c, .refl c, hdone, hstep⟩
  | head hhalt hround _ ih =>
      obtain ⟨c₁, h₁, hdone₁, hstep₁⟩ := tail_round hdone hstep hhalt hround
      obtain ⟨c₂, h₂, hdone₂, hstep₂⟩ := ih hdone₁ hstep₁
      exact ⟨c₂, h₁.trans h₂, hdone₂, hstep₂⟩

/-- On a run that halts, the tail-call engine returns with the machine of the switch
engine exactly when the word at the program counter where the run stops can be read
and is supported. -/
theorem tailCall_returns_iff (host : Host) (s t : Machine)
    (h : (interpreterSwitch host).Returns s t) :
    (interpreterTailCall host).Returns ⟨.entry, s⟩ ⟨.returned, t⟩ ↔ NextWordSupported t := by
  obtain ⟨⟨vs, hvs⟩, hhalt⟩ := h
  obtain ⟨c, ⟨ws, hws⟩, hdone, hstep⟩ := tail_along hvs (c := ⟨.entry, s⟩) rfl rfl
  rw [Returns.of_run hws]
  exact tail_returns_of_halted hdone hstep hhalt

/-- A program that leaves its status in the first word and exits in the second. The
rest of its page is zero, which is a supported word, so the tail-call engine returns. -/
theorem tailCall_returns_iff_program :
    ∃ t, (interpreterSwitch failingHost).Returns (program 0x400000 [0x24020fa1, 0xc]) t ∧
      (interpreterTailCall failingHost).Returns ⟨.entry, program 0x400000 [0x24020fa1, 0xc]⟩
        ⟨.returned, t⟩ := by
  obtain ⟨t, ht, hnext⟩ := returns_of_exec (M := interpreterSwitch failingHost) (n := 2)
    (s := program 0x400000 [0x24020fa1, 0xc]) (p := fun t => okWith (· == 0) (fetch t))
    (by decide +kernel)
  obtain ⟨cir, hcir, hzero⟩ := okWith_eq_true.mp hnext
  obtain rfl : cir = 0 := eq_of_beq hzero
  exact ⟨t, ht, (tailCall_returns_iff failingHost _ t ht).mpr ⟨0, .sll, hcir, rfl⟩⟩

/-- The same two words at the end of a page, with no page after it. The switch engine
returns. The tail-call engine fetches past the page and never does. -/
theorem tailCall_overruns :
    (∃ t, (interpreterSwitch failingHost).Returns (program 0x400ff8 [0x24020fa1, 0xc]) t) ∧
      (interpreterTailCall failingHost).Faults ⟨.entry, program 0x400ff8 [0x24020fa1, 0xc]⟩
        .unmapped ∧
      ∀ c, ¬ (interpreterTailCall failingHost).Returns
        ⟨.entry, program 0x400ff8 [0x24020fa1, 0xc]⟩ c := by
  obtain ⟨t, ht, -⟩ := returns_of_exec (M := interpreterSwitch failingHost) (n := 2)
    (s := program 0x400ff8 [0x24020fa1, 0xc]) (p := fun _ => true) (by decide +kernel)
  have hfault : (interpreterTailCall failingHost).Faults
      ⟨.entry, program 0x400ff8 [0x24020fa1, 0xc]⟩ .unmapped :=
    faults_of_exec (n := 8) rfl
  exact ⟨⟨t, ht⟩, hfault, fun c hc => hc.not_faults hfault⟩

end MipsEngines
