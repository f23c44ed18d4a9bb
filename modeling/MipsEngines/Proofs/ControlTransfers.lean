import MipsEngines.Proofs.SwitchBlocks

/-!
# `MipsEngines.Proofs.ControlTransfers`: where a control transfer leads

`Encodes` says with integers which target a transfer encodes: a branch a signed number of words
from the delay slot, a jump the low bits of an address in the region of the delay slot, a jump
to a register what the register holds. `directTarget` of the handlers takes the region of the
jump itself. The two regions differ where the delay slot is the first word of a region
(`toNat_directTarget_j`), and that is the only way to miss a target
(`control_transfer_iff`).
-/

set_option autoImplicit false

namespace MipsEngines

open Lib

/-- The two addresses lie in one region of 256 MB. -/
def SameRegion (a b : U32) : Prop := a.toNat / 2 ^ 28 = b.toNat / 2 ^ 28

/-- The target that the transfer at `PC` encodes. A branch encodes one if its condition holds. -/
def Encodes (i : Instr) (cir : U32) (s : Machine) (t : U32) : Prop :=
  match i with
  | .j | .jal =>
      imm26Field cir = BitVec.ofNat 32 (t.toNat / 4 % 2 ^ 26) ∧ SameRegion t (s.reg MIPS_R_PC + 4)
  | .jr | .jalr => s.reg (rs cir) = t
  | _ => isTaken i cir s = true ∧ ∃ k : Int, -2 ^ 15 ≤ k ∧ k < 2 ^ 15 ∧
      imm16Field cir = BitVec.ofInt 16 k ∧ t = s.reg MIPS_R_PC + 4 + BitVec.ofInt 32 (4 * k)

/-- The instruction at `s₁`, in a delay slot, is no control transfer and no exit, and does not
fail. -/
structure DelaySlot (host : Host) (s₁ s₂ : Machine) : Prop where
  plain : atControl s₁ = false
  step : switchStep host s₁ = .ok s₂
  running : s₂.mips.halted = false

/-- What a control transfer at `s`, its delay slot at `s₁` and the state after it have to
meet. -/
structure TransfersRight (i : Instr) (cir : U32) (s s₁ s₂ : Machine) : Prop where
  delay : s₁.reg MIPS_R_PC = s.reg MIPS_R_PC + 4
  running : s₁.mips.halted = false
  linked : ∀ r, linkRegister i cir = some r → s₁.reg r = s.reg MIPS_R_PC + 8
  arrives : ∀ t : U32, t.toNat % 4 = 0 → Encodes i cir s t → s₂.reg MIPS_R_PC = t ∧ Aligned s₂
  falls : isTaken i cir s = false → s₂.reg MIPS_R_PC = s.reg MIPS_R_PC + 8

/-! ### Targets -/

/-- A branch: the sign-extended field, shifted, is the distance. -/
theorem signExtend_shiftLeft {k : Int} (hge : -2 ^ 15 ≤ k) (hlt : k < 2 ^ 15) :
    (BitVec.ofInt 16 k).signExtend 32 <<< 2 = BitVec.ofInt 32 (4 * k) := by
  have hk : (BitVec.ofInt 16 k).toInt = k := by
    rw [BitVec.toInt_ofInt]
    apply Int.bmod_eq_of_le <;> omega
  have hext : (BitVec.ofInt 16 k).signExtend 32 = BitVec.ofInt 32 k := by
    rw [BitVec.signExtend, hk]
  rw [hext, BitVec.shiftLeft_eq_mul_twoPow, BitVec.mul_comm, BitVec.ofInt_mul]
  rfl

theorem toNat_imm26Field (cir : U32) : (imm26Field cir).toNat < 2 ^ 26 :=
  toNat_and_mask_lt _ _ 26 rfl

/-- A jump: the region of `PC`, and the field as the bits below it. -/
theorem toNat_directTarget_j (cir pc : U32) :
    (directTarget .j cir pc).toNat
      = pc.toNat / 2 ^ 28 * 2 ^ 28 + 4 * (imm26Field cir).toNat := by
  have himm := toNat_imm26Field cir
  have htarget : directTarget .j cir pc = (pc &&& ~~~(0x0fffffff : U32)) ||| (imm26Field cir <<< 2) :=
    rfl
  have hfield : (imm26Field cir <<< 2).toNat = 4 * (imm26Field cir).toNat := by
    rw [BitVec.toNat_shiftLeft, Nat.shiftLeft_eq]
    omega
  -- The field lies below the bits of the region, so the `|` is a sum.
  rw [htarget, BitVec.toNat_or, toNat_and_not_mask pc 0x0fffffff 28 rfl, hfield, Nat.mul_comm,
    ← Nat.two_pow_add_eq_or_of_lt (by omega)]

/-- A jump encodes the address in the region of its delay slot. -/
theorem encodes_j_iff {cir : U32} {s : Machine} {i : Instr} (hi : i = .j ∨ i = .jal) {t : U32}
    (ht : t.toNat % 4 = 0) :
    Encodes i cir s t ↔ t.toNat = (s.reg MIPS_R_PC + 4).toNat / 2 ^ 28 * 2 ^ 28
      + 4 * (imm26Field cir).toNat := by
  have htlt := t.isLt
  have himm := toNat_imm26Field cir
  have hencodes : Encodes i cir s t ↔
      imm26Field cir = BitVec.ofNat 32 (t.toNat / 4 % 2 ^ 26) ∧
        SameRegion t (s.reg MIPS_R_PC + 4) := by
    rcases hi with rfl | rfl <;> rfl
  have hfield : imm26Field cir = BitVec.ofNat 32 (t.toNat / 4 % 2 ^ 26) ↔
      (imm26Field cir).toNat = t.toNat / 4 % 2 ^ 26 := by
    rw [← BitVec.toNat_inj, BitVec.toNat_ofNat]
    omega
  -- Region, field and alignment make up the address.
  rw [hencodes, hfield, SameRegion]
  omega

/-- A jump leads where it encodes exactly when it lies in the region of its delay slot. -/
theorem target_j_iff {cir : U32} {s : Machine} {i : Instr} (hi : i = .j ∨ i = .jal) :
    (∀ t : U32, t.toNat % 4 = 0 → Encodes i cir s t → target i cir s = t) ↔
      SameRegion (s.reg MIPS_R_PC) (s.reg MIPS_R_PC + 4) := by
  have hpc := (s.reg MIPS_R_PC).isLt
  have hnext := (s.reg MIPS_R_PC + 4).isLt
  have himm := toNat_imm26Field cir
  have htarget : (target i cir s).toNat = (s.reg MIPS_R_PC).toNat / 2 ^ 28 * 2 ^ 28
      + 4 * (imm26Field cir).toNat := by
    rcases hi with rfl | rfl <;> exact toNat_directTarget_j cir _
  unfold SameRegion
  constructor
  · intro hall
    -- The address that is encoded.
    let t : U32 := BitVec.ofNat 32
      ((s.reg MIPS_R_PC + 4).toNat / 2 ^ 28 * 2 ^ 28 + 4 * (imm26Field cir).toNat)
    have ht : t.toNat = (s.reg MIPS_R_PC + 4).toNat / 2 ^ 28 * 2 ^ 28
        + 4 * (imm26Field cir).toNat := by
      rw [BitVec.toNat_ofNat]
      omega
    have hmod : t.toNat % 4 = 0 := by omega
    have heq := congrArg BitVec.toNat (hall t hmod ((encodes_j_iff hi hmod).mpr ht))
    omega
  · intro hregion t hmod hencodes
    have ht := (encodes_j_iff hi hmod).mp hencodes
    apply BitVec.eq_of_toNat_eq
    omega

/-- Every other transfer leads where it encodes. -/
theorem target_of_encodes {cir : U32} {s : Machine} {i : Instr} (hc : i.isControl = true)
    (hj : ¬ (i = .j ∨ i = .jal)) {t : U32} (h : Encodes i cir s t) : target i cir s = t := by
  -- A branch that is taken goes by words from its delay slot.
  have hbranch : ∀ k : Int, -2 ^ 15 ≤ k → k < 2 ^ 15 → imm16Field cir = BitVec.ofInt 16 k →
      s.reg MIPS_R_PC + ((imm16Field cir).signExtend 32 <<< 2) + 4
        = s.reg MIPS_R_PC + 4 + BitVec.ofInt 32 (4 * k) := by
    intro k hge hlt himm
    rw [himm, signExtend_shiftLeft hge hlt, BitVec.add_assoc, BitVec.add_comm (BitVec.ofInt 32 _),
      ← BitVec.add_assoc]
  cases i with
  | j | jal => simp at hj
  | jr | jalr => exact h
  | blez | bgtz | bltz | bgez | bltzal | bgezal | beq | bne =>
      obtain ⟨htaken, k, hge, hlt, himm, rfl⟩ := h
      unfold target
      rw [if_neg (by decide), if_pos htaken]
      exact hbranch k hge hlt himm
  | _ => cases hc

/-! ### The transfer and its delay slot -/

section Transfer

variable {host : Host} {s s₁ s₂ : Machine} {cir : U32} {i : Instr}

/-- The step of a control transfer. -/
theorem switchStep_control (host : Host) (hw : currentWord s = some (cir, i))
    (hc : i.isControl = true) :
    switchStep host s = .ok ((link i cir s).withPipe
      ⟨s.reg MIPS_R_NPC, target i cir s, target i cir s + 4, isTaken i cir s⟩) := by
  obtain ⟨hfetch, hdispatch⟩ := currentWord_eq_some.mp hw
  refine switchStep_eq_ok.mpr ⟨cir, i, _, hfetch, hdispatch, execute_control host hc cir s, ?_⟩
  rw [incrementPc_eq, Machine.pipe_withPipe, Machine.withPipe_withPipe]
  rfl

theorem halted_link (i : Instr) (cir : U32) (s : Machine) :
    (link i cir s).mips.halted = s.mips.halted := by
  unfold link
  split <;> rfl

theorem reg_link {r : Reg} (h : linkRegister i cir = some r) (s : Machine) :
    (link i cir s).reg r = s.reg MIPS_R_PC + 8 := by
  unfold link
  rw [h]
  exact if_pos rfl

/-- After the delay slot, control is at the target. -/
theorem DelaySlot.pipe (h : DelaySlot host s₁ s₂) {pc target : U32} {taken : Bool}
    (hpipe : s₁.pipe = ⟨pc, target, target + 4, taken⟩) :
    s₂.reg MIPS_R_PC = target ∧ Aligned s₂ := by
  obtain ⟨w, t, hw, -, -⟩ := switchStep_currentWord h.step
  have hplain := h.plain
  rw [atControl_eq hw] at hplain
  obtain ⟨hnext, -⟩ := plain_step h.step hw hplain
  rw [hpipe] at hnext
  injection hnext with hpc hnpc hnnpc
  refine ⟨hpc, ?_, ?_⟩
  · rw [hnpc, hpc]
  · rw [hnnpc, hpc, BitVec.add_assoc]
    rfl

end Transfer

/-- A control transfer that is reached with its delay slot next never fails. It stores its
return address, runs its delay slot, and gets to the target it encodes, or if it is a branch
that is not taken to the word after the delay slot. A `J` or `JAL` does so exactly when it and
its delay slot lie in one region. -/
theorem control_transfer_iff (host : Host) (s : Machine) (cir : U32) (i : Instr)
    (hrunning : s.mips.halted = false) (haligned : Aligned s)
    (hw : currentWord s = some (cir, i)) (hc : i.isControl = true) :
    (∃ s₁, switchStep host s = .ok s₁) ∧
    ∀ s₁ s₂, switchStep host s = .ok s₁ → DelaySlot host s₁ s₂ →
      (TransfersRight i cir s s₁ s₂ ↔
        (i = .j ∨ i = .jal → SameRegion (s.reg MIPS_R_PC) (s.reg MIPS_R_PC + 4))) := by
  have hstep := switchStep_control host hw hc
  refine ⟨⟨_, hstep⟩, fun s₁ s₂ hs₁ hslot => ?_⟩
  cases hstep.symm.trans hs₁
  obtain ⟨hpc, haligned₂⟩ := hslot.pipe (Machine.pipe_withPipe _ _)
  constructor
  · intro hright hj
    -- `PC` after the delay slot is the target, so the target is right as well.
    have hreach : ∀ t : U32, t.toNat % 4 = 0 → Encodes i cir s t → target i cir s = t := by
      intro t hmod hencodes
      rw [← hpc]
      exact (hright.arrives t hmod hencodes).1
    exact (target_j_iff hj).mp hreach
  · intro hregion
    constructor
    case delay => exact haligned.1
    case running => exact (halted_link i cir s).trans hrunning
    case linked =>
      intro r hr
      rw [Machine.reg_withPipe (linkRegister_lt hr), reg_link hr]
    case arrives =>
      intro t hmod hencodes
      refine ⟨hpc.trans ?_, haligned₂⟩
      by_cases hj : i = .j ∨ i = .jal
      · exact (target_j_iff hj).mpr (hregion hj) t hmod hencodes
      · exact target_of_encodes hc hj hencodes
    case falls =>
      intro htaken
      rw [hpc]
      -- Only a branch can fail to be taken.
      have hindirect : i.isIndirect = false := by
        cases i with
        | jr | jalr => cases htaken
        | _ => rfl
      unfold target
      rw [hindirect, htaken]
      rfl

/-- A jump and its delay slot, evaluated: the slot is no transfer and no exit. -/
theorem delaySlot_of_check {host : Host} {s : Machine} (p : Machine → Machine → Bool)
    (h : okWith (fun s₁ => okWith (fun s₂ => !atControl s₁ && !s₂.mips.halted && p s₁ s₂)
      (switchStep host s₁)) (switchStep host s) = true) :
    ∃ s₁ s₂, switchStep host s = .ok s₁ ∧ DelaySlot host s₁ s₂ ∧ p s₁ s₂ = true := by
  obtain ⟨s₁, hs₁, h⟩ := okWith_eq_true.mp h
  obtain ⟨s₂, hs₂, h⟩ := okWith_eq_true.mp h
  simp only [Bool.and_eq_true, Bool.not_eq_true'] at h
  exact ⟨s₁, s₂, hs₁, ⟨h.1.1, hs₂, h.1.2⟩, h.2⟩

/-- A jump to `0x400030`, with a `NOP` in its delay slot. -/
abbrev jumpMachine : Machine := program 0x400000 [0x0810000c, 0]

theorem control_transfer_iff_jump :
    ∃ s₁ s₂, switchStep failingHost jumpMachine = .ok s₁ ∧ DelaySlot failingHost s₁ s₂ ∧
      TransfersRight .j 0x0810000c jumpMachine s₁ s₂ := by
  obtain ⟨s₁, s₂, hs₁, hslot, -⟩ := delaySlot_of_check (fun _ _ => true)
    (show okWith _ (switchStep failingHost jumpMachine) = true by decide +kernel)
  have hright := (control_transfer_iff failingHost jumpMachine 0x0810000c .j rfl ⟨rfl, rfl⟩
    (by decide +kernel) rfl).2 s₁ s₂ hs₁ hslot
  exact ⟨s₁, s₂, hs₁, hslot, hright.mpr fun _ => by unfold SameRegion; decide⟩

/-- A jump in the last word of a region, with a `NOP` in the first word of the next one. -/
def regionEnd : Machine :=
  { program 0x0ffffffc [] with
    memory := { memoryCreate Memory.empty with
      pageTables := fun t =>
        if t = ptIdx 0x0ffffffc then
          some fun e => if e = peIdx 0x0ffffffc then some (programPage 0x0ffffffc [0x08000004])
            else none
        else if t = ptIdx 0x10000000 then
          some fun e => if e = peIdx 0x10000000 then some fun _ => 0 else none
        else none } }

/-- It encodes `0x10000010`, in the region of its delay slot, and leads to `0x10`. -/
theorem jump_misses_region :
    regionEnd.mips.halted = false ∧ Aligned regionEnd ∧
      currentWord regionEnd = some (0x08000004, .j) ∧ Encodes .j 0x08000004 regionEnd 0x10000010 ∧
      ∃ s₁ s₂, switchStep failingHost regionEnd = .ok s₁ ∧ DelaySlot failingHost s₁ s₂ ∧
        s₂.reg MIPS_R_PC = 0x10 ∧ ¬ TransfersRight .j 0x08000004 regionEnd s₁ s₂ := by
  obtain ⟨s₁, s₂, hs₁, hslot, hpc⟩ := delaySlot_of_check (fun _ s₂ => s₂.reg MIPS_R_PC == 0x10)
    (show okWith _ (switchStep failingHost regionEnd) = true by decide +kernel)
  have hpc₂ : s₂.reg MIPS_R_PC = 0x10 := eq_of_beq hpc
  have hencodes : Encodes .j 0x08000004 regionEnd 0x10000010 := by
    refine ⟨by decide, ?_⟩
    unfold SameRegion
    decide
  refine ⟨rfl, ⟨rfl, rfl⟩, by decide +kernel, hencodes, s₁, s₂, hs₁, hslot, hpc₂, ?_⟩
  intro hright
  have harrives := (hright.arrives 0x10000010 (by decide) hencodes).1
  rw [hpc₂] at harrives
  exact absurd harrives (by decide)

end MipsEngines
