import MipsEngines.Proofs.Frames
import MipsEngines.Proofs.Pipeline

/-!
# `MipsEngines.Proofs.Operands`: the registers an instruction reads and writes

`Instr.reads` and `Instr.writes` list the registers a handler takes its operands from
and the ones it may store to. `execute_reg` is the frame of every handler, system calls
included: a register that is not in the second list keeps its value. `mem_writes` says
what can be in it: general registers, `HI` and `LO`, and `NNPC` for a control transfer.
-/

set_option autoImplicit false

namespace MipsEngines

open Lib

/-! ### The two lists -/

/-- The registers a handler of the template reads, `PC` apart. -/
def Template.reads (cir : U32) : Template → List Reg
  | .shiftImm _ => [rt cir]
  | .shiftReg _ | .multDiv _ | .aluReg _ | .branchEqNe _ | .storeImm _ | .sc => [rs cir, rt cir]
  | .jr | .jalr | .mt _ | .branchGeneric _ _ | .aluImm _ => [rs cir]
  -- `LWL` and `LWR` merge into the old value of `rt`.
  | .loadImm _ => [rs cir, rt cir]
  | .mf source => [source]
  -- `mmap2` finds its last arguments on the stack.
  | .syscall => [MIPS_R_V0, MIPS_R_A0, MIPS_R_A1, MIPS_R_A2, MIPS_R_A3, MIPS_R_SP]
  | .special | .brk => [MIPS_R_V0, MIPS_R_A0, MIPS_R_A1, MIPS_R_A2, MIPS_R_A3]
  | .jJal _ | .luiImm | .rdhwr => []

/-- The registers a handler of the template may store to. -/
def Template.writes (cir : U32) : Template → List Reg
  | .shiftImm _ | .shiftReg _ | .mf _ | .aluReg _ => [rd cir]
  | .aluImm _ | .luiImm | .loadImm _ | .sc | .rdhwr => [rt cir]
  | .mt target => [target]
  | .multDiv _ => [MIPS_R_LO, MIPS_R_HI]
  | .jr | .branchEqNe _ => [MIPS_R_NNPC]
  | .jalr => [rd cir, MIPS_R_NNPC]
  | .branchGeneric link _ | .jJal link =>
      if link then [MIPS_R_RA, MIPS_R_NNPC] else [MIPS_R_NNPC]
  | .syscall => [MIPS_R_V0, MIPS_R_A0, MIPS_R_A3]
  | .special | .brk | .storeImm _ => []

def Instr.reads (i : Instr) (cir : U32) : List Reg := i.template.reads cir

def Instr.writes (i : Instr) (cir : U32) : List Reg := i.template.writes cir

/-- What an instruction may store to: general registers, `HI` and `LO`, and `NNPC` if it is
a control transfer. -/
theorem mem_writes {i : Instr} {cir : U32} {r : Reg} (h : r ∈ i.writes cir) :
    r.val < 34 ∨ i.isControl = true ∧ r = MIPS_R_NNPC := by
  cases i with
  | blez | bgtz | bltz | bgez | beq | bne | j | jr =>
      exact .inr ⟨rfl, List.mem_singleton.mp h⟩
  | jal | bltzal | bgezal | jalr =>
      rcases List.mem_cons.mp h with rfl | h
      · exact .inl (gpr_lt _)
      · exact .inr ⟨rfl, List.mem_singleton.mp h⟩
  | mult | multu | div | divu =>
      rcases List.mem_cons.mp h with rfl | h
      · exact .inl (by decide)
      · rw [List.mem_singleton.mp h]
        exact .inl (by decide)
  | mthi | mtlo =>
      rw [List.mem_singleton.mp h]
      exact .inl (by decide)
  | syscall =>
      have hall : ∀ r ∈ [MIPS_R_V0, MIPS_R_A0, MIPS_R_A3], r.val < 34 := by decide
      exact .inl (hall r h)
  | special | brk | sb | sh | swl | sw | swr => cases h
  | _ =>
      rw [List.mem_singleton.mp h]
      exact .inl (gpr_lt _)

/-! ### The frame of a handler -/

/-- A branch stores to `NNPC` only. -/
theorem reg_branchOn {r : Reg} (hr : r ≠ MIPS_R_NNPC) (cir : U32) (s : Machine) (taken : Bool) :
    (branchOn cir s taken).reg r = s.reg r := by
  cases taken <;> exact reg_setReg_of_ne hr _ _

/-- A register that an instruction does not write keeps its value. -/
theorem execute_reg {host : Host} {i : Instr} {cir : U32} {s t : Machine} {r : Reg}
    (h : execute host i cir s = .ok t) (hr : r ∉ i.writes cir) : t.reg r = s.reg r := by
  unfold execute at h
  unfold Instr.writes at hr
  cases htemplate : i.template with
  | shiftImm | shiftReg | mf | mt | luiImm | rdhwr =>
      rw [htemplate] at h hr
      cases h
      exact reg_setReg_of_ne (List.ne_of_not_mem_cons hr) _ _
  | aluReg impl =>
      rw [htemplate] at h hr
      cases h
      unfold typeAluReg
      split
      · exact reg_setReg_of_ne (List.ne_of_not_mem_cons hr) _ _
      · rfl
  | aluImm impl =>
      rw [htemplate] at h hr
      cases h
      unfold typeAluImm
      split
      · exact reg_setReg_of_ne (List.ne_of_not_mem_cons hr) _ _
      · rfl
  | multDiv impl =>
      rw [htemplate] at h hr
      cases h
      obtain ⟨hlo, hhi⟩ : r ≠ MIPS_R_LO ∧ r ≠ MIPS_R_HI := by simpa [Template.writes] using hr
      -- `LO` is stored first, then `HI`.
      exact (reg_setReg_of_ne hhi _ _).trans (reg_setReg_of_ne hlo _ _)
  | loadImm impl =>
      rw [htemplate] at h hr
      obtain ⟨v, -, h⟩ := bind_eq_ok.mp h
      cases h
      exact reg_setReg_of_ne (List.ne_of_not_mem_cons hr) _ _
  | storeImm impl =>
      rw [htemplate] at h
      obtain ⟨memory, -, h⟩ := bind_eq_ok.mp h
      cases h
      rfl
  | sc =>
      rw [htemplate] at h hr
      -- The store to memory, and then the store of its success.
      obtain ⟨s₁, hs₁, h⟩ := bind_eq_ok.mp h
      obtain ⟨memory, -, hs₁⟩ := bind_eq_ok.mp hs₁
      cases hs₁
      cases h
      exact reg_setReg_of_ne (List.ne_of_not_mem_cons hr) _ _
  | jr =>
      rw [htemplate] at h hr
      cases h
      exact reg_setReg_of_ne (List.ne_of_not_mem_cons hr) _ _
  | jalr =>
      rw [htemplate] at h hr
      cases h
      obtain ⟨hrd, hnnpc⟩ : r ≠ rd cir ∧ r ≠ MIPS_R_NNPC := by simpa [Template.writes] using hr
      exact (reg_setReg_of_ne hnnpc _ _).trans (reg_setReg_of_ne hrd _ _)
  | branchEqNe cond =>
      rw [htemplate] at h hr
      cases h
      exact reg_branchOn (List.ne_of_not_mem_cons hr) cir s _
  | branchGeneric link cond =>
      rw [htemplate] at h hr
      cases h
      cases link with
      | false => exact reg_branchOn (List.ne_of_not_mem_cons hr) cir s _
      | true =>
          obtain ⟨hra, hnnpc⟩ : r ≠ MIPS_R_RA ∧ r ≠ MIPS_R_NNPC := by
            simpa [Template.writes] using hr
          exact (reg_branchOn hnnpc cir _ _).trans (reg_setReg_of_ne hra _ _)
  | jJal link =>
      rw [htemplate] at h hr
      cases h
      cases link with
      | false => exact reg_setReg_of_ne (List.ne_of_not_mem_cons hr) _ _
      | true =>
          obtain ⟨hra, hnnpc⟩ : r ≠ MIPS_R_RA ∧ r ≠ MIPS_R_NNPC := by
            simpa [Template.writes] using hr
          exact (reg_setReg_of_ne hnnpc _ _).trans (reg_setReg_of_ne hra _ _)
  | syscall =>
      rw [htemplate] at h hr
      obtain ⟨hv0, ha0, ha3⟩ : r ≠ MIPS_R_V0 ∧ r ≠ MIPS_R_A0 ∧ r ≠ MIPS_R_A3 := by
        simpa [Template.writes] using hr
      -- `v0` and `a3` are results, and `munmap` clears `a0`.
      exact itpSyscallImpl_reg h hv0 ha0 ha3
  | special =>
      rw [htemplate] at h
      cases h
      rfl
  | brk =>
      rw [htemplate] at h
      cases h

end MipsEngines
