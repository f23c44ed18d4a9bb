import MipsEngines.Proofs.Operands
import MipsEngines.Proofs.SwitchBlocks

/-!
# `MipsEngines.Proofs.PcPipeline`: the program counter between instructions

`PC`, `NPC` and `NNPC` share an array with the registers that instructions name, and a
branch that is not taken rewrites `NNPC` from `PC`. `pc_pipeline` says that it comes out
right all the same: between any two instructions the three are in a row, except in the
delay slot of a taken transfer. It rests on the frame of the handlers (`execute_pipelineFrame`)
and on the two steps of `SwitchBlocks`, for a plain instruction and for a transfer.
-/

set_option autoImplicit false

namespace MipsEngines

open Lib

/-! ### The invariant -/

/-- The instruction at the program counter is a control transfer that is taken. -/
def atTaken (s : Machine) : Bool :=
  (currentWord s).any fun w => w.2.isControl && isTaken w.2 w.1 s

/-- The program counters after the first `k` instructions of a run. -/
structure InRow (m : Nat → Machine) (k : Nat) : Prop where
  nnpc : (m k).reg MIPS_R_NNPC = (m k).reg MIPS_R_NPC + 4
  npc : (m k).reg MIPS_R_NPC = (m k).reg MIPS_R_PC + 4 ∨ ∃ j, k = j + 1 ∧ atTaken (m j) = true

/-! ### The frame of a handler -/

/-- What a handler does to the registers that no instruction names. -/
structure PipelineFrame (i : Instr) (s t : Machine) : Prop where
  pc : t.reg MIPS_R_PC = s.reg MIPS_R_PC
  npc : t.reg MIPS_R_NPC = s.reg MIPS_R_NPC
  cir : t.reg MIPS_R_CIR = s.reg MIPS_R_CIR
  garbage : t.reg MIPS_R_GARBAGE = s.reg MIPS_R_GARBAGE
  nnpc : i.isControl = false → t.reg MIPS_R_NNPC = s.reg MIPS_R_NNPC
  branched : i.isControl = false → t.mips.branched = s.mips.branched
  others : ∀ r, t.reg r ≠ s.reg r → r ≠ MIPS_R_NNPC →
    r.val < 32 ∨ r = MIPS_R_HI ∨ r = MIPS_R_LO

/-- A register past `LO` that is not `NNPC`. -/
theorem notMem_writes {i : Instr} {cir : U32} {r : Reg} (hr : 34 ≤ r.val) (hne : r ≠ MIPS_R_NNPC) :
    r ∉ i.writes cir := by
  intro h
  rcases mem_writes h with hlt | ⟨-, heq⟩
  · omega
  · exact hne heq

/-- The frame of every handler, for every word, state and host. -/
theorem execute_pipelineFrame {host : Host} {i : Instr} {cir : U32} {s t : Machine}
    (h : execute host i cir s = .ok t) : PipelineFrame i s t := by
  constructor
  case pc => exact execute_reg h (notMem_writes (by decide) (by decide))
  case npc => exact execute_reg h (notMem_writes (by decide) (by decide))
  case cir => exact execute_reg h (notMem_writes (by decide) (by decide))
  case garbage => exact execute_reg h (notMem_writes (by decide) (by decide))
  case nnpc => exact fun hi => congrArg Pipe.nnpc (execute_pipe hi h)
  case branched => exact fun hi => congrArg Pipe.branched (execute_pipe hi h)
  case others =>
    intro r hchanged hne
    have hmem : r ∈ i.writes cir := by
      by_contra hnot
      exact hchanged (execute_reg h hnot)
    rcases mem_writes hmem with hlt | ⟨-, heq⟩
    · rcases Nat.lt_or_ge r.val 32 with hgpr | hge
      · exact .inl hgpr
      · have hcases : r.val = 32 ∨ r.val = 33 := by omega
        rcases hcases with h32 | h33
        · exact .inr (.inl (Fin.ext h32))
        · exact .inr (.inr (Fin.ext h33))
    · exact absurd heq hne

/-! ### Runs -/

/-- A transfer that is not taken is a branch, and goes to the word after its delay slot. -/
theorem target_of_not_taken {i : Instr} {cir : U32} {s : Machine}
    (h : isTaken i cir s = false) : target i cir s = s.reg MIPS_R_PC + 8 := by
  have hdirect : i.isIndirect = false := by
    cases i with
    | jr | jalr => cases h
    | _ => rfl
  simp [target, hdirect, h]

section Run

variable {host : Host} {m : Nat → Machine} {n : Nat}

/-- A plain instruction leaves the row in order, also after a taken transfer. -/
theorem InRow.plain (h : SwitchRun host m n) {k : Nat} (hk : k < n) (hrow : InRow m k)
    {w : U32 × Instr} (hw : currentWord (m k) = some w) (hc : w.2.isControl = false) :
    InRow m (k + 1) := by
  have hpipe := (plain_step (h.step k hk) hw hc).1
  have hpc : (m (k + 1)).reg MIPS_R_PC = (m k).reg MIPS_R_NPC := congrArg Pipe.pc hpipe
  have hnpc : (m (k + 1)).reg MIPS_R_NPC = (m k).reg MIPS_R_NNPC := congrArg Pipe.npc hpipe
  have hnnpc : (m (k + 1)).reg MIPS_R_NNPC = (m k).reg MIPS_R_NNPC + 4 :=
    congrArg Pipe.nnpc hpipe
  refine ⟨by rw [hnnpc, hnpc], .inl ?_⟩
  rw [hnpc, hpc, hrow.nnpc]

/-- A control transfer, where `NPC` follows `PC`: the row goes on behind its delay slot, at its
target if it is taken. -/
theorem InRow.control (h : SwitchRun host m n) {k : Nat} (hk : k < n)
    (hnext : (m k).reg MIPS_R_NPC = (m k).reg MIPS_R_PC + 4)
    {w : U32 × Instr} (hw : currentWord (m k) = some w) (hc : w.2.isControl = true) :
    InRow m (k + 1) := by
  have hpipe := (control_step (h.step k hk) hw hc).1
  have hpc : (m (k + 1)).reg MIPS_R_PC = (m k).reg MIPS_R_NPC := congrArg Pipe.pc hpipe
  have hnpc : (m (k + 1)).reg MIPS_R_NPC = target w.2 w.1 (m k) := congrArg Pipe.npc hpipe
  have hnnpc : (m (k + 1)).reg MIPS_R_NNPC = target w.2 w.1 (m k) + 4 := congrArg Pipe.nnpc hpipe
  refine ⟨by rw [hnnpc, hnpc], ?_⟩
  cases htaken : isTaken w.2 w.1 (m k) with
  | true => exact .inr ⟨k, rfl, by simp [atTaken, hw, hc, htaken]⟩
  | false =>
      -- Not taken, it stores `PC + 8` in `NNPC`, which is where the row goes on.
      refine .inl ?_
      rw [hnpc, hpc, target_of_not_taken htaken, hnext, BitVec.add_assoc]
      rfl

/-- Every state of a run that starts in a row and has no transfer in a delay slot. -/
theorem SwitchRun.inRow (h : SwitchRun host m n) (hstart : Aligned (m 0))
    (hdelay : NoControlInDelaySlot m n) (k : Nat) (hk : k ≤ n) : InRow m k := by
  induction k with
  | zero =>
      refine ⟨?_, .inl hstart.1⟩
      rw [hstart.1, hstart.2, BitVec.add_assoc]
      rfl
  | succ k ih =>
      have hrow := ih (by omega)
      obtain ⟨w, hw⟩ := h.word (show k < n by omega)
      cases hc : w.2.isControl with
      | false => exact hrow.plain h hk hw hc
      | true =>
          refine InRow.control h hk ?_ hw hc
          rcases hrow.npc with hnext | ⟨j, rfl, htaken⟩
          · exact hnext
          · -- This transfer would be in the delay slot of a taken one.
            have hbefore : atControl (m j) = true := by
              obtain ⟨v, hv⟩ := h.word (show j < n by omega)
              simp [atTaken, hv] at htaken
              rw [atControl_eq hv, htaken.1]
            have hnone := hdelay j (by omega) hbefore
            rw [atControl_eq hw, hc] at hnone
            cases hnone

end Run

/-- The program counter pipeline. In every state of a run between two instructions, `NNPC`
follows `NPC`, and `NPC` follows `PC` unless the instruction before was a taken transfer. And
no handler stores to `PC`, `NPC`, `CIR` or `GARBAGE`, only control transfers change `NNPC` or
`branched`, and whatever else changes in the array is a general register, `HI` or `LO`. -/
theorem pc_pipeline (host : Host) (m : Nat → Machine) (n : Nat) (hrun : SwitchRun host m n)
    (hstart : Aligned (m 0)) (hdelay : NoControlInDelaySlot m n) :
    (∀ k, k ≤ n → InRow m k) ∧
      ∀ (i : Instr) (cir : U32) (s t : Machine), execute host i cir s = .ok t →
        PipelineFrame i s t :=
  ⟨hrun.inRow hstart hdelay, fun _ _ _ _ => execute_pipelineFrame⟩

/-- A `NOP`, a taken branch to itself and its delay slot. -/
theorem pc_pipeline_branch :
    InRow (runStates failingHost (program 0x400000 [0, 0x1000ffff, 0])) 2 := by
  have hrun : SwitchRun failingHost
      (runStates failingHost (program 0x400000 [0, 0x1000ffff, 0])) 3 :=
    switchRun_runStates (by decide +kernel) (by decide +kernel)
  have hdelay : ∀ j, j < 2 →
      atControl (runStates failingHost (program 0x400000 [0, 0x1000ffff, 0]) j) = true →
      atControl (runStates failingHost (program 0x400000 [0, 0x1000ffff, 0]) (j + 1)) = false := by
    decide +kernel
  exact (pc_pipeline failingHost _ 3 hrun ⟨rfl, rfl⟩ fun j hj => hdelay j (by omega)).1 2
    (by decide)

end MipsEngines
