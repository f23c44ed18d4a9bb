import MipsEngines.Model.Memory

/-!
# `MipsEngines.Model.Mips`: the register file and the machine state

`struct mips` of `mips.h`, without the load-delay fields that only a
`LOAD_DELAY_ENABLE` build has. General registers, `HI`, `LO` and the program
counter pipeline share the one array `r`, as in the source.

`Machine` is what an engine works on: the registers, the guest memory, and the
host calls made so far.
-/

set_option autoImplicit false

namespace MipsEngines

/-- `MIPS_R_REG_MAX`. -/
abbrev MIPS_R_REG_MAX : Nat := 39

/-- An index of `r`, the values of `enum MIPS_REG`. -/
abbrev Reg := Fin MIPS_R_REG_MAX

/-- A general register: the index a five-bit field of an instruction names. -/
def gpr (n : Fin 32) : Reg := n.castLE (by decide)

abbrev MIPS_R_ZERO : Reg := gpr 0
abbrev MIPS_R_V0 : Reg := gpr 2
abbrev MIPS_R_A0 : Reg := gpr 4
abbrev MIPS_R_A1 : Reg := gpr 5
abbrev MIPS_R_A2 : Reg := gpr 6
abbrev MIPS_R_A3 : Reg := gpr 7
abbrev MIPS_R_T0 : Reg := gpr 8
abbrev MIPS_R_T1 : Reg := gpr 9
abbrev MIPS_R_GP : Reg := gpr 28
abbrev MIPS_R_SP : Reg := gpr 29
abbrev MIPS_R_RA : Reg := gpr 31
abbrev MIPS_R_HI : Reg := 32
abbrev MIPS_R_LO : Reg := 33
abbrev MIPS_R_PC : Reg := 34
abbrev MIPS_R_NPC : Reg := 35
abbrev MIPS_R_NNPC : Reg := 36
abbrev MIPS_R_CIR : Reg := 37
abbrev MIPS_R_GARBAGE : Reg := 38

/-- The register named by the `rs` field. -/
def rs (cir : U32) : Reg := gpr ⟨((cir >>> RS_SHIFT) &&& RS_MASK).toNat, toNat_and_mask_lt _ _ 5 rfl⟩

/-- The register named by the `rt` field. -/
def rt (cir : U32) : Reg := gpr ⟨((cir >>> RT_SHIFT) &&& RT_MASK).toNat, toNat_and_mask_lt _ _ 5 rfl⟩

/-- The register named by the `rd` field. -/
def rd (cir : U32) : Reg := gpr ⟨((cir >>> RD_SHIFT) &&& RD_MASK).toNat, toNat_and_mask_lt _ _ 5 rfl⟩

/-- `struct mips`. -/
structure Mips where
  r : Reg → U32
  status : U32
  tidptr : U32
  userLocalPtr : U32
  branched : Bool
  halted : Bool

/-- `struct mips mips = {}`. -/
def Mips.zero : Mips := ⟨fun _ => 0, 0, 0, 0, false, false⟩

/-- A store to one register. -/
def Mips.set (mips : Mips) (i : Reg) (v : U32) : Mips :=
  { mips with r := fun j => if j = i then v else mips.r j }

/-! ### Host calls -/

/-- `struct winsize`. -/
structure Winsize where
  row : U16
  col : U16
  xpixel : U16
  ypixel : U16
  deriving DecidableEq, Repr

/-- `struct timespec` of the host. -/
structure Timespec where
  sec : U64
  nsec : U64
  deriving DecidableEq, Repr

/-- A system call the emulator makes to the host, with its arguments. -/
inductive HostCall
  | read (fd size : U32)
  | write (fd : U32) (data : List U8)
  | open (name : List U8) (flags : U32) (mode : Option U32)
  | close (fd : U32)
  | lseek (fd offset whence : U32)
  | ioctl (fd : U32)
  | clockGettime (clockId : U32)
  deriving DecidableEq, Repr

/-- What `read` does with the transfer buffer. `count` is its result, `none` for
an error. `data` is what it delivers, in the first `count` bytes, and `fresh` is
what `malloc` left in the others. -/
structure ReadReply (size : U32) where
  count : Option (Fin (size.toNat + 1))
  data : Nat → U8
  fresh : Nat → U8

/-- The transfer buffer after the call. -/
def ReadReply.buffer {size : U32} (reply : ReadReply size) (i : Nat) : U8 :=
  match reply.count with
  | none => reply.fresh i
  | some n => if i < n.val then reply.data i else reply.fresh i

/-- The answer to each call. A `none` is the result `-1`. -/
abbrev HostCall.Reply : HostCall → Type
  | .read _ size => ReadReply size
  | .write _ data => Option (Fin (data.length + 1))
  | .open _ _ _ => U32
  | .close _ => U32
  | .lseek _ _ _ => U64
  | .ioctl _ => Option Winsize
  | .clockGettime _ => Option Timespec

/-- A host: the answer to a call, given the calls made before it (latest
first). Two engines with the same host get the same answers to the same calls
in the same order. -/
abbrev Host := List HostCall → (call : HostCall) → call.Reply

/-- What an engine works on. -/
structure Machine where
  mips : Mips
  memory : Memory
  /-- The host calls made so far, latest first. -/
  calls : List HostCall

namespace Machine

/-- `mips->r[i]`. -/
def reg (s : Machine) (i : Reg) : U32 := s.mips.r i

/-- `mips->r[i] = v`. -/
def setReg (s : Machine) (i : Reg) (v : U32) : Machine := { s with mips := s.mips.set i v }

/-- `mips->branched = b`. -/
def setBranched (s : Machine) (b : Bool) : Machine :=
  { s with mips := { s.mips with branched := b } }

def setMemory (s : Machine) (memory : Memory) : Machine := { s with memory := memory }

/-- A host call: its answer, and the machine with the call recorded. -/
def call (s : Machine) (host : Host) (c : HostCall) : c.Reply × Machine :=
  (host s.calls c, { s with calls := c :: s.calls })

end Machine

/-- `INCREMENT_PC`. -/
def incrementPc (s : Machine) : Machine :=
  let s := s.setReg MIPS_R_PC (s.reg MIPS_R_NPC)
  let s := s.setReg MIPS_R_NPC (s.reg MIPS_R_NNPC)
  s.setReg MIPS_R_NNPC (s.reg MIPS_R_NNPC + 4)

/-! ### Reading back a store -/

namespace Machine

@[simp] theorem reg_setReg (s : Machine) (i j : Reg) (v : U32) :
    (s.setReg i v).reg j = if j = i then v else s.reg j := rfl

@[simp] theorem reg_setBranched (s : Machine) (b : Bool) (j : Reg) :
    (s.setBranched b).reg j = s.reg j := rfl

@[simp] theorem reg_setMemory (s : Machine) (m : Memory) (j : Reg) :
    (s.setMemory m).reg j = s.reg j := rfl

@[simp] theorem memory_setReg (s : Machine) (i : Reg) (v : U32) :
    (s.setReg i v).memory = s.memory := rfl

@[simp] theorem memory_setBranched (s : Machine) (b : Bool) :
    (s.setBranched b).memory = s.memory := rfl

@[simp] theorem memory_setMemory (s : Machine) (m : Memory) : (s.setMemory m).memory = m := rfl

@[simp] theorem calls_setReg (s : Machine) (i : Reg) (v : U32) :
    (s.setReg i v).calls = s.calls := rfl

@[simp] theorem calls_setBranched (s : Machine) (b : Bool) :
    (s.setBranched b).calls = s.calls := rfl

@[simp] theorem calls_setMemory (s : Machine) (m : Memory) :
    (s.setMemory m).calls = s.calls := rfl

@[simp] theorem branched_setReg (s : Machine) (i : Reg) (v : U32) :
    (s.setReg i v).mips.branched = s.mips.branched := rfl

@[simp] theorem halted_setReg (s : Machine) (i : Reg) (v : U32) :
    (s.setReg i v).mips.halted = s.mips.halted := rfl

@[simp] theorem halted_setBranched (s : Machine) (b : Bool) :
    (s.setBranched b).mips.halted = s.mips.halted := rfl

/-- A register set to what it holds. -/
theorem setReg_reg (s : Machine) (r : Reg) : s.setReg r (s.reg r) = s := by
  have hr : (s.mips.set r (s.mips.r r)).r = s.mips.r := by
    funext j
    simp only [Mips.set]
    split
    · rename_i hj
      rw [hj]
    · rfl
  unfold setReg reg
  rw [show s.mips.set r (s.mips.r r) = s.mips by
    cases h : s.mips with
    | mk regs status tidptr userLocalPtr branched halted =>
        rw [h] at hr
        simp only [Mips.set] at hr ⊢
        rw [hr]]

end Machine

end MipsEngines
