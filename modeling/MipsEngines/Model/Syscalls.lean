import MipsEngines.Model.Mips

/-!
# `MipsEngines.Model.Syscalls`: the system-call handlers

`syscalls.h`, one function a handler, and the numbers of `syscall.h.in` that
`ITP_SYSCALL_IMPL` switches on. The arguments a handler ignores are left out of
its signature.

`malloc` is taken to succeed, so the `assert(0)` arms after a failed `malloc` are
not modelled. A host result of type `ssize_t`, `off_t` or `int` is stored in a
`u32` register, which keeps its low 32 bits: `-1` becomes `0xffffffff`.
-/

set_option autoImplicit false

namespace MipsEngines

abbrev NR_exit : U32 := 4001
abbrev NR_read : U32 := 4003
abbrev NR_write : U32 := 4004
abbrev NR_open : U32 := 4005
abbrev NR_close : U32 := 4006
abbrev NR_lseek : U32 := 4019
abbrev NR_brk : U32 := 4045
abbrev NR_ioctl : U32 := 4054
abbrev NR_munmap : U32 := 4091
abbrev NR_mprotect : U32 := 4125
abbrev NR_writev : U32 := 4146
abbrev NR_mmap2 : U32 := 4210
abbrev NR_exit_group : U32 := 4246
abbrev NR_set_tid_address : U32 := 4252
abbrev NR_set_thread_area : U32 := 4283
abbrev NR_clock_gettime64 : U32 := 4403

/-- `O_CREAT` of the host. -/
abbrev O_CREAT : U32 := 0x40

/-- A transfer count in a `u32`, `-1` for an error. -/
def countResult {n : Nat} (count : Option (Fin n)) : U32 :=
  match count with
  | none => -1
  | some k => BitVec.ofNat 32 k.val

def mipsSyscallExit (s : Machine) (status : U32) : Machine :=
  { s with mips := { s.mips with status := status, halted := true } }

def mipsSyscallRead (host : Host) (s : Machine) (fd address size : U32) :
    Except Fault Machine := do
  let (reply, s) := s.call host (.read fd size)
  let reply : ReadReply size := reply
  let s := s.setReg MIPS_R_V0 (countResult reply.count)
  -- All of the buffer goes to the guest, whatever the count is.
  let memory ← memoryCopyWrite s.memory address size reply.buffer
  return s.setMemory memory

def mipsSyscallWrite (host : Host) (s : Machine) (fd address size : U32) :
    Except Fault Machine := do
  -- The guest memory is read before the host is asked.
  let buffer ← memoryCopyRead s.memory address size
  let (reply, s) := s.call host (.write fd buffer)
  let reply : Option (Fin (buffer.length + 1)) := reply
  return s.setReg MIPS_R_V0 (countResult reply)

/-- The `do`-`while` that measures the file name, its terminator included.
`name+size` wraps at `2 ^ 32`, so the loop has seen every address after `2 ^ 32`
rounds and never ends when none of them holds a zero. -/
def openSize : Nat → Memory → U32 → U32 → Except Fault U32
  | 0, _, _, _ => .error .diverge
  | fuel + 1, memory, name, size => do
      let c ← memoryReadU8 memory (name + size)
      if c = 0 then return size + 1 else openSize fuel memory name (size + 1)

/-- The host reads the name up to its terminator, and past the buffer when there
is none. -/
def mipsSyscallOpen (host : Host) (s : Machine) (name flags mode : U32) :
    Except Fault Machine := do
  let size ← openSize (2 ^ 32) s.memory name 0
  let buffer ← memoryCopyRead s.memory name size
  if 0 ∈ buffer then
    -- `open` takes a mode only when it may create the file.
    let mode := if flags &&& O_CREAT = 0 then none else some (mode &&& 0o777)
    let (reply, s) := s.call host (.open (buffer.takeWhile (· ≠ 0)) flags mode)
    let reply : U32 := reply
    return s.setReg MIPS_R_V0 reply
  else .error .overrun

def mipsSyscallClose (host : Host) (s : Machine) (fd : U32) : Machine :=
  let (reply, s) := s.call host (.close fd)
  let reply : U32 := reply
  s.setReg MIPS_R_V0 reply

def mipsSyscallLseek (host : Host) (s : Machine) (fd offset whence : U32) : Machine :=
  let (reply, s) := s.call host (.lseek fd offset whence)
  let reply : U64 := reply
  s.setReg MIPS_R_V0 (reply.setWidth 32)

/-- Only the window-size request is handled, the others fail an `assert`. -/
def mipsSyscallIoctl (host : Host) (s : Machine) (fd request argp : U32) :
    Except Fault Machine :=
  if request = 0x40087468 then
    let (reply, s) := s.call host (.ioctl fd)
    let reply : Option Winsize := reply
    match reply with
    -- `-ENOTTY` is stored in `v0` itself, with `a3` left alone.
    | none => .ok (s.setReg MIPS_R_V0 (-25))
    | some ws => do
        -- Four writes, each with a translation of its own.
        let memory ← memoryWriteU16 s.memory (argp + 0) ws.row
        let memory ← memoryWriteU16 memory (argp + 2) ws.col
        let memory ← memoryWriteU16 memory (argp + 4) ws.xpixel
        let memory ← memoryWriteU16 memory (argp + 6) ws.ypixel
        return (s.setMemory memory).setReg MIPS_R_V0 0
  else .error .abort

/-- The loop of `writev` from entry `c` on, with `cnt` entries left. The result
of each `write` is added to the unsigned total, an error as `-1`. -/
def writevLoop (host : Host) (fd ptr : U32) : Nat → U32 → U32 → Machine →
    Except Fault (U32 × Machine)
  | 0, _, total, s => .ok (total, s)
  | cnt + 1, c, total, s => do
      let address ← memoryReadU32 s.memory (ptr + c * 8 + 0)
      let length ← memoryReadU32 s.memory (ptr + c * 8 + 4)
      if length = 0 then writevLoop host fd ptr cnt (c + 1) total s
      else
        let buffer ← memoryCopyRead s.memory address length
        let (reply, s) := s.call host (.write fd buffer)
        let reply : Option (Fin (buffer.length + 1)) := reply
        writevLoop host fd ptr cnt (c + 1) (total + countResult reply) s

def mipsSyscallWritev (host : Host) (s : Machine) (fd ptr cnt : U32) :
    Except Fault Machine := do
  let (total, s) ← writevLoop host fd ptr cnt.toNat 0 0 s
  return s.setReg MIPS_R_V0 total

def mipsSyscallBrk (s : Machine) (brk : U32) : Machine :=
  let memory :=
    -- The heap never shrinks: below its end the call only reports it.
    if brk > s.memory.brkHeapEnd then
      { memoryAllocate s.memory s.memory.brkHeapEnd (brk - s.memory.brkHeapEnd) with
        brkHeapEnd := brk }
    else s.memory
  (s.setMemory memory).setReg MIPS_R_V0 memory.brkHeapEnd

/-- The stack arguments are read and dropped, by loads that the build is taken to keep. The end of
the new region is compared with `USER_TOP` in 32-bit arithmetic, by an `assert` that is on. -/
def mipsSyscallMmap2 (s : Machine) (len : U32) : Except Fault Machine := do
  let _fd ← memoryReadU32 s.memory (s.reg MIPS_R_SP + 16)
  let _pgoff ← memoryReadU32 s.memory (s.reg MIPS_R_SP + 20)
  let len := (len + 0xfff) &&& ~~~0xfff
  let targetAddress := s.memory.mmapHeapEnd
  -- The sum wraps, so a length near `2 ^ 32` passes.
  if targetAddress + len > USER_TOP then .error .abort
  else
    let memory := memoryAllocate s.memory s.memory.mmapHeapEnd len
    let memory ← memorySet memory memory.mmapHeapEnd len 0
    let memory := { memory with mmapHeapEnd := memory.mmapHeapEnd + len }
    return ((s.setMemory memory).setReg MIPS_R_V0 targetAddress).setReg MIPS_R_A3 0

def mipsSyscallMunmap (s : Machine) : Machine :=
  -- `a0`, where the sibling handlers clear `a3`.
  (s.setReg MIPS_R_V0 0).setReg MIPS_R_A0 0

def mipsSyscallMprotect (s : Machine) : Machine :=
  (s.setReg MIPS_R_V0 0).setReg MIPS_R_A3 0

def mipsSyscallClockGettime64 (host : Host) (s : Machine) (clockId timespecPtr : U32) :
    Except Fault Machine :=
  -- The registers are first set as for `EINVAL`.
  let s := (s.setReg MIPS_R_V0 22).setReg MIPS_R_A3 1
  let (reply, s) := s.call host (.clockGettime clockId)
  let reply : Option Timespec := reply
  match reply with
  | none => .ok s
  | some ts => do
      let memory ← memoryWriteU32 s.memory (timespecPtr + 0) (ts.sec.setWidth 32)
      let memory ← memoryWriteU32 memory (timespecPtr + 4) ((ts.sec >>> 32).setWidth 32)
      let memory ← memoryWriteU32 memory (timespecPtr + 8) (ts.nsec.setWidth 32)
      let memory ← memoryWriteU32 memory (timespecPtr + 12) ((ts.nsec >>> 32).setWidth 32)
      return ((s.setMemory memory).setReg MIPS_R_V0 0).setReg MIPS_R_A3 0

def mipsSyscallExitGroup (s : Machine) (status : U32) : Machine :=
  { s with mips := { s.mips with status := status, halted := true } }

def mipsSyscallSetThreadArea (s : Machine) (addr : U32) : Machine :=
  ({ s with mips := { s.mips with userLocalPtr := addr } } : Machine).setReg MIPS_R_V0 0

def mipsSyscallTidAddr (s : Machine) (tidptr : U32) : Machine :=
  ({ s with mips := { s.mips with tidptr := tidptr } } : Machine).setReg MIPS_R_V0 1

/-- `ITP_SYSCALL_IMPL`, on the registers that its type has read. -/
def itpSyscallImpl (host : Host) (v0 a0 a1 a2 : U32) (s : Machine) : Except Fault Machine :=
  if v0 = NR_exit then .ok (mipsSyscallExit s a0)
  else if v0 = NR_read then mipsSyscallRead host s a0 a1 a2
  else if v0 = NR_write then mipsSyscallWrite host s a0 a1 a2
  else if v0 = NR_open then mipsSyscallOpen host s a0 a1 a2
  else if v0 = NR_close then .ok (mipsSyscallClose host s a0)
  else if v0 = NR_lseek then .ok (mipsSyscallLseek host s a0 a1 a2)
  else if v0 = NR_ioctl then mipsSyscallIoctl host s a0 a1 a2
  else if v0 = NR_writev then mipsSyscallWritev host s a0 a1 a2
  else if v0 = NR_brk then .ok (mipsSyscallBrk s a0)
  else if v0 = NR_mmap2 then mipsSyscallMmap2 s a1
  else if v0 = NR_munmap then .ok (mipsSyscallMunmap s)
  else if v0 = NR_mprotect then .ok (mipsSyscallMprotect s)
  else if v0 = NR_clock_gettime64 then mipsSyscallClockGettime64 host s a0 a1
  else if v0 = NR_exit_group then .ok (mipsSyscallExitGroup s a0)
  else if v0 = NR_set_tid_address then .ok (mipsSyscallTidAddr s a0)
  else if v0 = NR_set_thread_area then .ok (mipsSyscallSetThreadArea s a0)
  else .error .abort

end MipsEngines
