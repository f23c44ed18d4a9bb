import MipsEngines.Lib.Except
import MipsEngines.Model.Instructions

/-!
# `MipsEngines.Proofs.Pipeline`: handlers and the program counter pipeline

`PC`, `NPC`, `NNPC` and `branched` are split off as a `Pipe`, which can be read
from a machine and put into it. The two main results:

* `execute_withPipe`: a handler that is not a control transfer neither reads nor
  writes the pipe. System calls included, it does the same under any pipe.
* `execute_control`: a control transfer never fails. It stores its return address,
  and sets `branched` and `NNPC` from the operands and `PC` alone.

What each family of instructions does is proved once for the family. The engines
keep different pipes while they run the same handlers, so these are the facts
their comparison rests on.
-/

set_option autoImplicit false

namespace MipsEngines

open Lib

/-- The part of a machine that control transfers work on. -/
structure Pipe where
  pc : U32
  npc : U32
  nnpc : U32
  branched : Bool
  deriving DecidableEq, Repr

namespace Machine

def pipe (s : Machine) : Pipe :=
  ⟨s.reg MIPS_R_PC, s.reg MIPS_R_NPC, s.reg MIPS_R_NNPC, s.mips.branched⟩

/-- The machine with its pipe replaced. -/
def withPipe (s : Machine) (p : Pipe) : Machine :=
  { s with
    mips :=
      { s.mips with
        branched := p.branched
        r := fun i =>
          if i = MIPS_R_PC then p.pc
          else if i = MIPS_R_NPC then p.npc
          else if i = MIPS_R_NNPC then p.nnpc
          else s.mips.r i } }

/-! ### Reading a pipe and putting it back -/

@[simp] theorem withPipe_pipe (s : Machine) : s.withPipe s.pipe = s := by
  have hr : (s.withPipe s.pipe).mips.r = s.mips.r := by
    funext i
    simp only [withPipe, pipe, reg]
    split_ifs with h₁ h₂ h₃
    · rw [h₁]
    · rw [h₂]
    · rw [h₃]
    · rfl
  obtain ⟨⟨r, status, tidptr, userLocalPtr, branched, halted⟩, memory, calls⟩ := s
  simp only [withPipe] at hr ⊢
  rw [hr]
  rfl

@[simp] theorem pipe_withPipe (s : Machine) (p : Pipe) : (s.withPipe p).pipe = p := rfl

@[simp] theorem withPipe_withPipe (s : Machine) (p q : Pipe) :
    (s.withPipe p).withPipe q = s.withPipe q := by
  have hr : ((s.withPipe p).withPipe q).mips.r = (s.withPipe q).mips.r := by
    funext i
    simp only [withPipe]
    split_ifs <;> rfl
  simp only [withPipe] at hr ⊢
  rw [hr]

@[simp] theorem memory_withPipe (s : Machine) (p : Pipe) : (s.withPipe p).memory = s.memory :=
  rfl

@[simp] theorem calls_withPipe (s : Machine) (p : Pipe) : (s.withPipe p).calls = s.calls := rfl

@[simp] theorem halted_withPipe (s : Machine) (p : Pipe) :
    (s.withPipe p).mips.halted = s.mips.halted := rfl

@[simp] theorem status_withPipe (s : Machine) (p : Pipe) :
    (s.withPipe p).mips.status = s.mips.status := rfl

@[simp] theorem userLocalPtr_withPipe (s : Machine) (p : Pipe) :
    (s.withPipe p).mips.userLocalPtr = s.mips.userLocalPtr := rfl

@[simp] theorem reg_pc_withPipe (s : Machine) (p : Pipe) :
    (s.withPipe p).reg MIPS_R_PC = p.pc := rfl

@[simp] theorem reg_npc_withPipe (s : Machine) (p : Pipe) :
    (s.withPipe p).reg MIPS_R_NPC = p.npc := rfl

@[simp] theorem reg_nnpc_withPipe (s : Machine) (p : Pipe) :
    (s.withPipe p).reg MIPS_R_NNPC = p.nnpc := rfl

@[simp] theorem branched_withPipe (s : Machine) (p : Pipe) :
    (s.withPipe p).mips.branched = p.branched := rfl

/-- The registers outside the pipeline: the general ones, `HI` and `LO`. -/
theorem reg_withPipe {i : Reg} (hi : i.val < 34) (s : Machine) (p : Pipe) :
    (s.withPipe p).reg i = s.reg i := by
  simp only [reg, withPipe]
  rw [if_neg (Fin.ne_of_val_ne (Nat.ne_of_lt hi)),
    if_neg (Fin.ne_of_val_ne (show i.val ≠ 35 by omega)),
    if_neg (Fin.ne_of_val_ne (show i.val ≠ 36 by omega))]

/-- A store outside the pipeline. -/
theorem setReg_withPipe {i : Reg} (hi : i.val < 34) (s : Machine) (p : Pipe) (v : U32) :
    (s.withPipe p).setReg i v = (s.setReg i v).withPipe p := by
  have hr : ((s.withPipe p).setReg i v).mips.r = ((s.setReg i v).withPipe p).mips.r := by
    funext k
    by_cases hk : k = i
    · subst hk
      simp only [setReg, Mips.set, withPipe, if_true]
      rw [if_neg (Fin.ne_of_val_ne (Nat.ne_of_lt hi)),
        if_neg (Fin.ne_of_val_ne (show k.val ≠ 35 by omega)),
        if_neg (Fin.ne_of_val_ne (show k.val ≠ 36 by omega))]
    · simp only [setReg, Mips.set, withPipe, if_neg hk]
  simp only [setReg, Mips.set, withPipe] at hr ⊢
  rw [hr]

theorem setMemory_withPipe (s : Machine) (p : Pipe) (m : Memory) :
    (s.withPipe p).setMemory m = (s.setMemory m).withPipe p := rfl

theorem call_withPipe (s : Machine) (p : Pipe) (host : Host) (c : HostCall) :
    (s.withPipe p).call host c = ((s.call host c).1, (s.call host c).2.withPipe p) := rfl

end Machine

/-- `INCREMENT_PC` on a pipe. -/
def Pipe.increment (p : Pipe) : Pipe := ⟨p.npc, p.nnpc, p.nnpc + 4, p.branched⟩

theorem incrementPc_eq (s : Machine) : incrementPc s = s.withPipe s.pipe.increment := by
  have hr : (incrementPc s).mips.r = (s.withPipe s.pipe.increment).mips.r := by
    funext i
    simp only [incrementPc, Machine.setReg, Mips.set, Machine.withPipe, Machine.reg,
      Machine.pipe, Pipe.increment]
    by_cases h₁ : i = MIPS_R_PC
    · subst h₁; rfl
    · by_cases h₂ : i = MIPS_R_NPC
      · subst h₂; rfl
      · simp only [if_neg h₁, if_neg h₂]
        by_cases h₃ : i = MIPS_R_NNPC
        · subst h₃; rfl
        · simp only [if_neg h₃]
  simp only [incrementPc, Machine.setReg, Mips.set, Machine.withPipe] at hr ⊢
  rw [hr]
  rfl

/-- A register outside the pipeline, after the program counter step. -/
theorem reg_incrementPc {r : Reg} (hr : r.val < 34) (s : Machine) :
    (incrementPc s).reg r = s.reg r := by
  rw [incrementPc_eq]
  exact Machine.reg_withPipe hr s _

open Machine

/-! ### Handlers outside the pipeline -/

theorem gpr_lt (n : Fin 32) : (gpr n).val < 34 := by
  show n.val < 34
  omega

theorem rs_lt (cir : U32) : (rs cir).val < 34 := gpr_lt _

theorem rt_lt (cir : U32) : (rt cir).val < 34 := gpr_lt _

theorem rd_lt (cir : U32) : (rd cir).val < 34 := gpr_lt _

/-- `f` neither reads nor writes the pipe. -/
def PipeFree (f : Machine → Except Fault Machine) : Prop :=
  ∀ s p, f (s.withPipe p) = (f s).map (·.withPipe p)

theorem PipeFree.of_ok {g : Machine → Machine}
    (h : ∀ s p, g (s.withPipe p) = (g s).withPipe p) : PipeFree fun s => .ok (g s) :=
  fun s p => congrArg Except.ok (h s p)

theorem PipeFree.ite {c : Prop} [Decidable c] {f g : Machine → Except Fault Machine}
    (hf : PipeFree f) (hg : PipeFree g) : PipeFree fun s => if c then f s else g s :=
  fun s p => by
    by_cases h : c
    · simpa only [if_pos h] using hf s p
    · simpa only [if_neg h] using hg s p

section Families

variable (cir : U32)

theorem typeShiftImm_pipeFree (impl : U32 → Nat → U32) :
    PipeFree fun s => .ok (typeShiftImm cir s impl) :=
  .of_ok fun s p => by
    unfold typeShiftImm
    rw [reg_withPipe (rt_lt cir), setReg_withPipe (rd_lt cir)]

theorem typeShiftReg_pipeFree (impl : U32 → U32 → U32) :
    PipeFree fun s => .ok (typeShiftReg cir s impl) :=
  .of_ok fun s p => by
    unfold typeShiftReg
    rw [reg_withPipe (rs_lt cir), reg_withPipe (rt_lt cir), setReg_withPipe (rd_lt cir)]

theorem typeMf_pipeFree {source : Reg} (h : source.val < 34) :
    PipeFree fun s => .ok (typeMf cir s source) :=
  .of_ok fun s p => by
    unfold typeMf
    rw [reg_withPipe h, setReg_withPipe (rd_lt cir)]

theorem typeMt_pipeFree {target : Reg} (h : target.val < 34) :
    PipeFree fun s => .ok (typeMt cir s target) :=
  .of_ok fun s p => by
    unfold typeMt
    rw [reg_withPipe (rs_lt cir), setReg_withPipe h]

theorem typeMultDiv_pipeFree (impl : U32 → U32 → U32 × U32) :
    PipeFree fun s => .ok (typeMultDiv cir s impl) :=
  .of_ok fun s p => by
    unfold typeMultDiv
    rw [reg_withPipe (rs_lt cir), reg_withPipe (rt_lt cir)]
    simp only [setReg_withPipe (i := MIPS_R_LO) (by decide),
      setReg_withPipe (i := MIPS_R_HI) (by decide)]

theorem typeAluReg_pipeFree (impl : U32 → U32 → Option U32) :
    PipeFree fun s => .ok (typeAluReg cir s impl) :=
  .of_ok fun s p => by
    unfold typeAluReg
    rw [reg_withPipe (rs_lt cir), reg_withPipe (rt_lt cir)]
    cases impl (s.reg (rs cir)) (s.reg (rt cir)) with
    | none => rfl
    | some v => exact setReg_withPipe (rd_lt cir) s p v

theorem typeAluImm_pipeFree (impl : U32 → U16 → Option U32) :
    PipeFree fun s => .ok (typeAluImm cir s impl) :=
  .of_ok fun s p => by
    unfold typeAluImm
    rw [reg_withPipe (rs_lt cir)]
    cases impl (s.reg (rs cir)) (imm16Field cir) with
    | none => rfl
    | some v => exact setReg_withPipe (rt_lt cir) s p v

theorem typeLuiImm_pipeFree : PipeFree fun s => .ok (typeLuiImm cir s) :=
  .of_ok fun s p => setReg_withPipe (rt_lt cir) s p _

theorem typeRdhwr_pipeFree : PipeFree fun s => .ok (typeRdhwr cir s) :=
  .of_ok fun s p => setReg_withPipe (rt_lt cir) s p _

theorem computeAddress_withPipe (s : Machine) (p : Pipe) :
    computeAddress cir (s.withPipe p) = computeAddress cir s := by
  unfold computeAddress
  rw [reg_withPipe (rs_lt cir)]

theorem typeLoadImm_pipeFree (impl : Memory → U32 → U32 → Except Fault U32) :
    PipeFree fun s => typeLoadImm cir s impl := fun s p => by
  simp only [typeLoadImm]
  rw [memory_withPipe, computeAddress_withPipe, reg_withPipe (rt_lt cir), map_bind]
  exact bind_congr fun v _ => congrArg Except.ok (setReg_withPipe (rt_lt cir) s p v)

theorem typeStoreImm_pipeFree (impl : Memory → U32 → U32 → Except Fault Memory) :
    PipeFree fun s => typeStoreImm cir s impl := fun s p => by
  simp only [typeStoreImm]
  rw [memory_withPipe, computeAddress_withPipe, reg_withPipe (rt_lt cir), map_bind]
  rfl

/-- The type reads registers outside the pipeline. -/
theorem typeSyscall_pipeFree {impl : U32 → U32 → U32 → U32 → Machine → Except Fault Machine}
    (h : ∀ v0 a0 a1 a2, PipeFree (impl v0 a0 a1 a2)) : PipeFree fun s => typeSyscall s impl :=
  fun s p => by
    simp only [typeSyscall]
    rw [reg_withPipe (gpr_lt 2), reg_withPipe (gpr_lt 4), reg_withPipe (gpr_lt 5),
      reg_withPipe (gpr_lt 6)]
    exact h _ _ _ _ s p

theorem typeSc_pipeFree : PipeFree (typeSc cir) := fun s p => by
  unfold typeSc
  rw [show typeStoreImm cir (s.withPipe p) itpSwImpl = _ from
    typeStoreImm_pipeFree cir itpSwImpl s p, map_bind, bind_map]
  exact bind_congr fun t _ => congrArg Except.ok (setReg_withPipe (rt_lt cir) t p 1)

end Families

/-! ### System calls -/

section Syscalls

variable (host : Host)

theorem mipsSyscallRead_pipeFree (fd address size : U32) :
    PipeFree fun s => mipsSyscallRead host s fd address size := fun s p => by
  unfold mipsSyscallRead
  simp only [call_withPipe, setReg_withPipe (gpr_lt 2), memory_withPipe, map_bind]
  rfl

theorem mipsSyscallWrite_pipeFree (fd address size : U32) :
    PipeFree fun s => mipsSyscallWrite host s fd address size := fun s p => by
  unfold mipsSyscallWrite
  simp only [call_withPipe, setReg_withPipe (gpr_lt 2), memory_withPipe, map_bind]
  rfl

theorem mipsSyscallOpen_pipeFree (name flags mode : U32) :
    PipeFree fun s => mipsSyscallOpen host s name flags mode := fun s p => by
  unfold mipsSyscallOpen
  simp only [call_withPipe, setReg_withPipe (gpr_lt 2), memory_withPipe, map_bind]
  refine bind_congr fun size _ => bind_congr fun buffer _ => ?_
  by_cases h : 0 ∈ buffer
  · simp only [if_pos h]
    rfl
  · simp only [if_neg h]
    rfl

theorem mipsSyscallClose_pipeFree (fd : U32) :
    PipeFree fun s => .ok (mipsSyscallClose host s fd) :=
  .of_ok fun s p => by
    unfold mipsSyscallClose
    simp only [call_withPipe, setReg_withPipe (gpr_lt 2)]

theorem mipsSyscallLseek_pipeFree (fd offset whence : U32) :
    PipeFree fun s => .ok (mipsSyscallLseek host s fd offset whence) :=
  .of_ok fun s p => by
    unfold mipsSyscallLseek
    simp only [call_withPipe, setReg_withPipe (gpr_lt 2)]

theorem mipsSyscallIoctl_pipeFree (fd request argp : U32) :
    PipeFree fun s => mipsSyscallIoctl host s fd request argp := fun s p => by
  unfold mipsSyscallIoctl
  split_ifs with h
  · simp only [call_withPipe, setReg_withPipe (gpr_lt 2)]
    cases (s.call host (.ioctl fd)).1 with
    | none => rfl
    | some ws =>
        simp only [memory_withPipe, map_bind, setMemory_withPipe, setReg_withPipe (gpr_lt 2)]
        rfl
  · rfl

theorem writevLoop_withPipe (fd ptr : U32) (cnt : Nat) :
    ∀ (c total : U32) (s : Machine) (p : Pipe),
      writevLoop host fd ptr cnt c total (s.withPipe p)
        = (writevLoop host fd ptr cnt c total s).map fun r => (r.1, r.2.withPipe p) := by
  induction cnt with
  | zero => intro c total s p; rfl
  | succ cnt ih =>
      intro c total s p
      simp only [writevLoop, memory_withPipe, map_bind]
      refine bind_congr fun address _ => bind_congr fun length _ => ?_
      split_ifs with h
      · exact ih _ _ _ _
      · simp only [map_bind, call_withPipe]
        exact bind_congr fun buffer _ => ih _ _ _ _

theorem mipsSyscallWritev_pipeFree (fd ptr cnt : U32) :
    PipeFree fun s => mipsSyscallWritev host s fd ptr cnt := fun s p => by
  unfold mipsSyscallWritev
  simp only [writevLoop_withPipe, map_bind, bind_map]
  refine bind_congr fun r _ => ?_
  exact congrArg Except.ok (setReg_withPipe (gpr_lt 2) r.2 p r.1)

theorem mipsSyscallBrk_pipeFree (brk : U32) : PipeFree fun s => .ok (mipsSyscallBrk s brk) :=
  .of_ok fun s p => by
    unfold mipsSyscallBrk
    simp only [memory_withPipe, setMemory_withPipe, setReg_withPipe (gpr_lt 2)]
    rfl

theorem mipsSyscallMmap2_pipeFree (len : U32) : PipeFree fun s => mipsSyscallMmap2 s len :=
  fun s p => by
    simp only [mipsSyscallMmap2]
    rw [memory_withPipe, reg_withPipe (gpr_lt 29)]
    simp only [Lib.map_bind]
    refine bind_congr fun fd _ => bind_congr fun pgoff _ => ?_
    by_cases h : s.memory.mmapHeapEnd + ((len + 0xfff) &&& ~~~0xfff) > USER_TOP
    · simp only [if_pos h]
      rfl
    · simp only [if_neg h, Lib.map_bind, setMemory_withPipe, setReg_withPipe (gpr_lt 2),
        setReg_withPipe (gpr_lt 7)]
      rfl

theorem mipsSyscallMunmap_pipeFree : PipeFree fun s => .ok (mipsSyscallMunmap s) :=
  .of_ok fun s p => by
    unfold mipsSyscallMunmap
    simp only [setReg_withPipe (gpr_lt 2), setReg_withPipe (gpr_lt 4)]

theorem mipsSyscallMprotect_pipeFree : PipeFree fun s => .ok (mipsSyscallMprotect s) :=
  .of_ok fun s p => by
    unfold mipsSyscallMprotect
    simp only [setReg_withPipe (gpr_lt 2), setReg_withPipe (gpr_lt 7)]

theorem mipsSyscallClockGettime64_pipeFree (clockId timespecPtr : U32) :
    PipeFree fun s => mipsSyscallClockGettime64 host s clockId timespecPtr := fun s p => by
  unfold mipsSyscallClockGettime64
  simp only [setReg_withPipe (gpr_lt 2), setReg_withPipe (gpr_lt 7), call_withPipe]
  cases (((s.setReg MIPS_R_V0 22).setReg MIPS_R_A3 1).call host (.clockGettime clockId)).1 with
  | none => rfl
  | some ts =>
      simp only [memory_withPipe, map_bind, setMemory_withPipe, setReg_withPipe (gpr_lt 2),
        setReg_withPipe (gpr_lt 7)]
      rfl

theorem mipsSyscallSetThreadArea_pipeFree (addr : U32) :
    PipeFree fun s => .ok (mipsSyscallSetThreadArea s addr) :=
  .of_ok fun s p =>
    setReg_withPipe (gpr_lt 2) { s with mips := { s.mips with userLocalPtr := addr } } p 0

theorem mipsSyscallTidAddr_pipeFree (tidptr : U32) :
    PipeFree fun s => .ok (mipsSyscallTidAddr s tidptr) :=
  .of_ok fun s p =>
    setReg_withPipe (gpr_lt 2) { s with mips := { s.mips with tidptr := tidptr } } p 1

theorem itpSyscallImpl_pipeFree (v0 a0 a1 a2 : U32) :
    PipeFree (itpSyscallImpl host v0 a0 a1 a2) :=
  .ite (.of_ok fun _ _ => rfl) <|
  .ite (mipsSyscallRead_pipeFree host a0 a1 a2) <|
  .ite (mipsSyscallWrite_pipeFree host a0 a1 a2) <|
  .ite (mipsSyscallOpen_pipeFree host a0 a1 a2) <|
  .ite (mipsSyscallClose_pipeFree host a0) <|
  .ite (mipsSyscallLseek_pipeFree host a0 a1 a2) <|
  .ite (mipsSyscallIoctl_pipeFree host a0 a1 a2) <|
  .ite (mipsSyscallWritev_pipeFree host a0 a1 a2) <|
  .ite (mipsSyscallBrk_pipeFree a0) <|
  .ite (mipsSyscallMmap2_pipeFree a1) <|
  .ite mipsSyscallMunmap_pipeFree <|
  .ite mipsSyscallMprotect_pipeFree <|
  .ite (mipsSyscallClockGettime64_pipeFree host a0 a1) <|
  .ite (.of_ok fun _ _ => rfl) <|
  .ite (mipsSyscallTidAddr_pipeFree a0) <|
  .ite (mipsSyscallSetThreadArea_pipeFree a0) fun _ _ => rfl

end Syscalls

/-- A handler that is not a control transfer does the same under any pipe, and leaves
it alone. -/
theorem execute_withPipe (host : Host) {i : Instr} (hi : i.isControl = false) (cir : U32) :
    PipeFree (execute host i cir) := by
  cases i with
  | blez | bgtz | j | jal | beq | bne | jr | jalr | bltz | bgez | bltzal | bgezal => cases hi
  | addi | addiu | slti | sltiu | andi | ori | xori => exact typeAluImm_pipeFree cir _
  | lui => exact typeLuiImm_pipeFree cir
  | lb | lh | lwl | lw | lbu | lhu | lwr | ll => exact typeLoadImm_pipeFree cir _
  | sb | sh | swl | sw | swr => exact typeStoreImm_pipeFree cir _
  | sc => exact typeSc_pipeFree cir
  | rdhwr => exact typeRdhwr_pipeFree cir
  | brk => exact fun s p => rfl
  | sll | srl | sra => exact typeShiftImm_pipeFree cir _
  | sllv | srlv | srav => exact typeShiftReg_pipeFree cir _
  | syscall => exact typeSyscall_pipeFree (itpSyscallImpl_pipeFree host)
  | special => exact fun s p => rfl
  | mfhi | mflo => exact typeMf_pipeFree cir (by decide)
  | mthi | mtlo => exact typeMt_pipeFree cir (by decide)
  | mult | multu | div | divu => exact typeMultDiv_pipeFree cir _
  | add | addu | sub | subu | slt | sltu | and | or | xor | nor =>
      exact typeAluReg_pipeFree cir _

/-- The pipe after such a handler is the pipe before it. -/
theorem execute_pipe {host : Host} {i : Instr} (hi : i.isControl = false) {cir : U32}
    {s t : Machine} (h : execute host i cir s = .ok t) : t.pipe = s.pipe := by
  have hself := execute_withPipe host hi cir s s.pipe
  rw [withPipe_pipe, h] at hself
  have ht : t = t.withPipe s.pipe := Except.ok.inj hself
  rw [ht, pipe_withPipe]

/-! ### Control transfers -/

/-- The register a linking transfer stores its return address in. -/
def linkRegister (i : Instr) (cir : U32) : Option Reg :=
  match i with
  | .jal | .bltzal | .bgezal => some MIPS_R_RA
  | .jalr => some (rd cir)
  | _ => none

/-- The machine after the link store, `PC + 8`. -/
def link (i : Instr) (cir : U32) (s : Machine) : Machine :=
  match linkRegister i cir with
  | some r => s.setReg r (s.reg MIPS_R_PC + 8)
  | none => s

/-- Whether the transfer is taken. -/
def isTaken (i : Instr) (cir : U32) (s : Machine) : Bool :=
  match i with
  | .beq => s.reg (rs cir) == s.reg (rt cir)
  | .bne => s.reg (rs cir) != s.reg (rt cir)
  | .blez => !ltS32 0 (s.reg (rs cir))
  | .bgtz => ltS32 0 (s.reg (rs cir))
  | .bltz | .bltzal => ltS32 (s.reg (rs cir)) 0
  | .bgez | .bgezal => !ltS32 (s.reg (rs cir)) 0
  | _ => true

/-- The target of a transfer that does not go through a register. -/
def directTarget (i : Instr) (cir pc : U32) : U32 :=
  match i with
  | .j | .jal => (pc &&& 0xf0000000) ||| (imm26Field cir <<< 2)
  | _ => pc + ((imm16Field cir).signExtend 32 <<< 2) + 4

/-- Where a transfer leads. -/
def target (i : Instr) (cir : U32) (s : Machine) : U32 :=
  if i.isIndirect then s.reg (rs cir)
  else if isTaken i cir s then directTarget i cir (s.reg MIPS_R_PC)
  else s.reg MIPS_R_PC + 8

/-- Setting `branched` and `NNPC` is a change of the pipe. -/
theorem setBranched_setReg_nnpc (s : Machine) (b : Bool) (v : U32) :
    (s.setBranched b).setReg MIPS_R_NNPC v
      = s.withPipe { s.pipe with nnpc := v, branched := b } := by
  have hr : ((s.setBranched b).setReg MIPS_R_NNPC v).mips.r
      = (s.withPipe { s.pipe with nnpc := v, branched := b }).mips.r := by
    funext k
    simp only [setReg, setBranched, Mips.set, withPipe, pipe, reg]
    by_cases h₁ : k = MIPS_R_PC
    · subst h₁; rfl
    · by_cases h₂ : k = MIPS_R_NPC
      · subst h₂; rfl
      · simp only [if_neg h₁, if_neg h₂]
  simp only [setReg, setBranched, Mips.set, withPipe] at hr ⊢
  rw [hr]

/-- A store to `PC` is a change of the pipe. -/
theorem setReg_pc_withPipe (s : Machine) (p : Pipe) (v : U32) :
    (s.withPipe p).setReg MIPS_R_PC v = s.withPipe { p with pc := v } := by
  have hr : ((s.withPipe p).setReg MIPS_R_PC v).mips.r = (s.withPipe { p with pc := v }).mips.r := by
    funext i
    simp only [setReg, Mips.set, withPipe]
    split_ifs <;> rfl
  simp only [setReg, Mips.set, withPipe] at hr ⊢
  rw [hr]

/-- A branch: `branched` and `NNPC` follow the condition. -/
theorem branchOn_eq (cir : U32) (s : Machine) (taken : Bool) :
    branchOn cir s taken
      = s.withPipe { s.pipe with
          nnpc := if taken then s.reg MIPS_R_PC + ((imm16Field cir).signExtend 32 <<< 2) + 4
            else s.reg MIPS_R_PC + 8
          branched := taken } := by
  cases taken <;> exact setBranched_setReg_nnpc s _ _

/-- A link store is outside the pipeline. -/
theorem pipe_setReg {i : Reg} (hi : i.val < 34) (s : Machine) (v : U32) :
    (s.setReg i v).pipe = s.pipe := by
  have h := setReg_withPipe hi s s.pipe v
  rw [withPipe_pipe] at h
  rw [h, pipe_withPipe]

theorem linkRegister_lt {i : Instr} {cir : U32} {r : Reg} (h : linkRegister i cir = some r) :
    r.val < 34 := by
  unfold linkRegister at h
  split at h
  all_goals cases h
  all_goals exact gpr_lt _

/-- The link store under another pipe with the same `PC`. -/
theorem link_withPipe (i : Instr) (cir : U32) (s : Machine) (p : Pipe)
    (hp : p.pc = s.reg MIPS_R_PC) : link i cir (s.withPipe p) = (link i cir s).withPipe p := by
  unfold link
  cases h : linkRegister i cir with
  | none => rfl
  | some r =>
      show (s.withPipe p).setReg r (p.pc + 8) = _
      rw [hp]
      exact setReg_withPipe (linkRegister_lt h) s p _

theorem isTaken_withPipe (i : Instr) (cir : U32) (s : Machine) (p : Pipe) :
    isTaken i cir (s.withPipe p) = isTaken i cir s := by
  unfold isTaken
  rw [reg_withPipe (rs_lt cir), reg_withPipe (rt_lt cir)]

theorem target_withPipe (i : Instr) (cir : U32) (s : Machine) (p : Pipe)
    (hp : p.pc = s.reg MIPS_R_PC) : target i cir (s.withPipe p) = target i cir s := by
  unfold target
  rw [isTaken_withPipe, reg_withPipe (rs_lt cir), reg_pc_withPipe, hp]

/-- A control transfer never fails. It stores its return address, then sets
`branched` and `NNPC`. -/
theorem execute_control (host : Host) {i : Instr} (hi : i.isControl = true) (cir : U32)
    (s : Machine) :
    execute host i cir s
      = .ok ((link i cir s).withPipe { s.pipe with
          nnpc := target i cir s
          branched := isTaken i cir s }) := by
  -- The link register is no part of the pipe.
  have hra : ∀ b v, ((s.setReg MIPS_R_RA (s.reg MIPS_R_PC + 8)).setBranched b).setReg MIPS_R_NNPC v
      = (s.setReg MIPS_R_RA (s.reg MIPS_R_PC + 8)).withPipe
          { s.pipe with nnpc := v, branched := b } := fun b v => by
    rw [setBranched_setReg_nnpc, pipe_setReg (gpr_lt 31)]
  cases i with
  | blez | bgtz | bltz | bgez | beq | bne => exact congrArg Except.ok (branchOn_eq cir s _)
  | bltzal | bgezal =>
      refine congrArg Except.ok ((branchOn_eq cir _ _).trans ?_)
      rw [if_pos rfl, pipe_setReg (gpr_lt 31)]
      rfl
  | j => exact congrArg Except.ok (setBranched_setReg_nnpc s true _)
  | jal => exact congrArg Except.ok (hra true _)
  | jr => exact congrArg Except.ok (setBranched_setReg_nnpc s true _)
  | jalr =>
      refine congrArg Except.ok ((setBranched_setReg_nnpc (s.setReg (rd cir) _) true _).trans ?_)
      rw [pipe_setReg (rd_lt cir)]
      rfl
  | addi | addiu | slti | sltiu | andi | ori | xori | lui | lb | lh | lwl | lw | lbu | lhu
  | lwr | ll | sb | sh | swl | sw | sc | swr | rdhwr | brk | sll | srl | sra | sllv | srlv
  | srav | syscall | special | mfhi | mflo | mthi | mtlo | mult | multu | div | divu | add
  | addu | sub | subu | slt | sltu | and | or | xor | nor => cases hi

end MipsEngines
