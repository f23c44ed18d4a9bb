import MipsEngines.Proofs.Frames
import MipsEngines.Proofs.Transfers

/-!
# `MipsEngines.Proofs.SyscallConvention`: the registers a system call returns in

The guest's C library takes `A3` for the error flag and `V0` for the result or the error
number. Each handler sets the registers by hand. Most set `V0` only (`OnlyV0`), to the
host's result, so the flag is what the guest left in `A3` and an error is a negative `V0`.

`Syscall` lists the calls that return, `Syscall.outcome` says what each comes to, from the
state it is made in and the host's answer, and `syscall_convention_iff` when the registers
say the same.
-/

set_option autoImplicit false

namespace MipsEngines

open Lib

/-- The system calls that return to the guest. -/
inductive Syscall
  | read | write | open | close | lseek | ioctl | writev | brk | mmap2 | munmap | mprotect
  | clockGettime64 | setTidAddress | setThreadArea
  deriving DecidableEq

/-- A branch of the dispatch, taken or not. -/
theorem ite_eq_or {α : Type} {p : Prop} [Decidable p] {x y z : α} (h : (if p then x else y) = z) :
    p ∧ x = z ∨ y = z := by
  by_cases hp : p
  · exact .inl ⟨hp, by rwa [if_pos hp] at h⟩
  · exact .inr (by rwa [if_neg hp] at h)

namespace Syscall

/-- The number in `V0`. -/
def number : Syscall → U32
  | read => NR_read
  | write => NR_write
  | .open => NR_open
  | close => NR_close
  | lseek => NR_lseek
  | ioctl => NR_ioctl
  | writev => NR_writev
  | brk => NR_brk
  | mmap2 => NR_mmap2
  | munmap => NR_munmap
  | mprotect => NR_mprotect
  | clockGettime64 => NR_clock_gettime64
  | setTidAddress => NR_set_tid_address
  | setThreadArea => NR_set_thread_area

/-- The handler, on the argument registers. -/
def run (host : Host) (s : Machine) : Syscall → Except Fault Machine
  | read => mipsSyscallRead host s (s.reg MIPS_R_A0) (s.reg MIPS_R_A1) (s.reg MIPS_R_A2)
  | write => mipsSyscallWrite host s (s.reg MIPS_R_A0) (s.reg MIPS_R_A1) (s.reg MIPS_R_A2)
  | .open => mipsSyscallOpen host s (s.reg MIPS_R_A0) (s.reg MIPS_R_A1) (s.reg MIPS_R_A2)
  | close => .ok (mipsSyscallClose host s (s.reg MIPS_R_A0))
  | lseek => .ok (mipsSyscallLseek host s (s.reg MIPS_R_A0) (s.reg MIPS_R_A1) (s.reg MIPS_R_A2))
  | ioctl => mipsSyscallIoctl host s (s.reg MIPS_R_A0) (s.reg MIPS_R_A1) (s.reg MIPS_R_A2)
  | writev => mipsSyscallWritev host s (s.reg MIPS_R_A0) (s.reg MIPS_R_A1) (s.reg MIPS_R_A2)
  | brk => .ok (mipsSyscallBrk s (s.reg MIPS_R_A0))
  | mmap2 => mipsSyscallMmap2 s (s.reg MIPS_R_A1)
  | munmap => .ok (mipsSyscallMunmap s)
  | mprotect => .ok (mipsSyscallMprotect s)
  | clockGettime64 => mipsSyscallClockGettime64 host s (s.reg MIPS_R_A0) (s.reg MIPS_R_A1)
  | setTidAddress => .ok (mipsSyscallTidAddr s (s.reg MIPS_R_A0))
  | setThreadArea => .ok (mipsSyscallSetThreadArea s (s.reg MIPS_R_A0))

/-- A `SYSCALL` that returns and is not an exit call is one of the list. -/
theorem of_execute {host : Host} {cir : U32} {s t : Machine}
    (h : execute host .syscall cir s = .ok t) (hexit : s.reg MIPS_R_V0 ≠ NR_exit)
    (hgroup : s.reg MIPS_R_V0 ≠ NR_exit_group) :
    ∃ c : Syscall, s.reg MIPS_R_V0 = c.number ∧ c.run host s = .ok t := by
  have himpl : itpSyscallImpl host (s.reg MIPS_R_V0) (s.reg MIPS_R_A0) (s.reg MIPS_R_A1)
      (s.reg MIPS_R_A2) s = .ok t := h
  -- The branches of the dispatch in their order, the two exit calls among them.
  unfold itpSyscallImpl at himpl
  obtain ⟨h, -⟩ | himpl := ite_eq_or himpl
  · exact absurd h hexit
  obtain ⟨h, hrun⟩ | himpl := ite_eq_or himpl
  · exact ⟨read, h, hrun⟩
  obtain ⟨h, hrun⟩ | himpl := ite_eq_or himpl
  · exact ⟨write, h, hrun⟩
  obtain ⟨h, hrun⟩ | himpl := ite_eq_or himpl
  · exact ⟨.open, h, hrun⟩
  obtain ⟨h, hrun⟩ | himpl := ite_eq_or himpl
  · exact ⟨close, h, hrun⟩
  obtain ⟨h, hrun⟩ | himpl := ite_eq_or himpl
  · exact ⟨lseek, h, hrun⟩
  obtain ⟨h, hrun⟩ | himpl := ite_eq_or himpl
  · exact ⟨ioctl, h, hrun⟩
  obtain ⟨h, hrun⟩ | himpl := ite_eq_or himpl
  · exact ⟨writev, h, hrun⟩
  obtain ⟨h, hrun⟩ | himpl := ite_eq_or himpl
  · exact ⟨brk, h, hrun⟩
  obtain ⟨h, hrun⟩ | himpl := ite_eq_or himpl
  · exact ⟨mmap2, h, hrun⟩
  obtain ⟨h, hrun⟩ | himpl := ite_eq_or himpl
  · exact ⟨munmap, h, hrun⟩
  obtain ⟨h, hrun⟩ | himpl := ite_eq_or himpl
  · exact ⟨mprotect, h, hrun⟩
  obtain ⟨h, hrun⟩ | himpl := ite_eq_or himpl
  · exact ⟨clockGettime64, h, hrun⟩
  obtain ⟨h, hrun⟩ | himpl := ite_eq_or himpl
  · exact absurd h hgroup
  obtain ⟨h, hrun⟩ | himpl := ite_eq_or himpl
  · exact ⟨setTidAddress, h, hrun⟩
  obtain ⟨h, hrun⟩ | himpl := ite_eq_or himpl
  · exact ⟨setThreadArea, h, hrun⟩
  cases himpl

end Syscall

/-! ### What a call comes to -/

/-- A result, or a failure. -/
inductive Outcome
  | success (result : Nat)
  | failure

/-- A positive error number. -/
def IsErrorNumber (v : U32) : Prop := 1 ≤ v.toNat ∧ v.toNat ≤ 4095

/-- The registers after a call, by its outcome. -/
def Outcome.Returned : Outcome → Machine → Prop
  | success result, t => t.reg MIPS_R_A3 = 0 ∧ (t.reg MIPS_R_V0).toNat = result
  | failure, t => t.reg MIPS_R_A3 = 1 ∧ IsErrorNumber (t.reg MIPS_R_V0)

/-- The register convention of the guest's system calls. -/
structure FollowsConvention (outcome : Outcome) (s t : Machine) : Prop where
  returned : outcome.Returned t
  others : ∀ r : Reg, r.val < 32 → r ≠ MIPS_R_V0 → r ≠ MIPS_R_A3 → t.reg r = s.reg r

/-- A transfer count. -/
def Outcome.ofCount : Option Nat → Outcome
  | none => failure
  | some n => success n

/-- A result of type `int`, with `-1` for an error. -/
def Outcome.ofInt {w : Nat} (v : BitVec w) : Outcome := if v = -1 then failure else success v.toNat

/-- A call that only fails or not. -/
def Outcome.ofAnswer {α : Type} : Option α → Outcome
  | none => failure
  | some _ => success 0

instance (ws : List HostWrite) : Decidable (FirstFails ws) :=
  match ws with
  | [] => isFalse fun ⟨_, _, h, _⟩ => by cases h
  | w :: rest =>
      decidable_of_iff (w.count = none)
        ⟨fun h => ⟨w, rest, rfl, h⟩, fun ⟨_, _, h, hcount⟩ => by cases h; exact hcount⟩

/-- The string at an address. -/
def guestString (memory : Memory) (name : U32) : List U8 :=
  match openSize (2 ^ 32) memory name 0 with
  | .error _ => []
  | .ok size => (flatBytes memory name size.toNat).takeWhile (· ≠ 0)

/-- The host's answer to `open`. -/
def openAnswer (host : Host) (s : Machine) : U32 :=
  host s.calls (.open (guestString s.memory (s.reg MIPS_R_A0)) (s.reg MIPS_R_A1)
    (if s.reg MIPS_R_A1 &&& O_CREAT = 0 then none else some (s.reg MIPS_R_A2 &&& 0o777)))

/-- The host's answer to `write`. -/
def writeCallAnswer (host : Host) (s : Machine) : HostWrite :=
  writeAnswer host s.calls (s.reg MIPS_R_A0)
    (flatBytes s.memory (s.reg MIPS_R_A1) (s.reg MIPS_R_A2).toNat)

/-- The host's answers to `writev`. -/
def writevCallReplies (host : Host) (s : Machine) : List HostWrite :=
  writevReplies host s (s.reg MIPS_R_A0) (s.reg MIPS_R_A1) (s.reg MIPS_R_A2)

namespace Syscall

/-- What each call comes to. `brk` answers with the break, `mmap2` with the region, and a
refused `mmap2` does not return. -/
def outcome (host : Host) (s : Machine) : Syscall → Outcome
  | read => .ofCount ((readReply host s (s.reg MIPS_R_A0) (s.reg MIPS_R_A2)).count.map Fin.val)
  | write => .ofCount (writeCallAnswer host s).count
  | .open => .ofInt (openAnswer host s)
  | close => .ofInt (host s.calls (.close (s.reg MIPS_R_A0)) : U32)
  | lseek => .ofInt (host s.calls
      (.lseek (s.reg MIPS_R_A0) (s.reg MIPS_R_A1) (s.reg MIPS_R_A2)) : U64)
  | ioctl => .ofAnswer (host s.calls (.ioctl (s.reg MIPS_R_A0)) : Option Winsize)
  | writev => if FirstFails (writevCallReplies host s) then .failure
      else .success (takenBytes (writevCallReplies host s)).length
  | brk => .success (max (s.reg MIPS_R_A0).toNat s.memory.brkHeapEnd.toNat)
  | mmap2 => .success s.memory.mmapHeapEnd.toNat
  | munmap => .success 0
  | mprotect => .success 0
  | clockGettime64 => .ofAnswer (host s.calls (.clockGettime (s.reg MIPS_R_A0)) : Option Timespec)
  | setTidAddress => .success 1
  | setThreadArea => .success 0

/-- The states and answers for which the handler follows the convention. -/
def Conforms (host : Host) (s : Machine) : Syscall → Prop
  | mmap2 => True
  | mprotect => True
  | clockGettime64 => True
  | munmap => s.reg MIPS_R_A3 = 0 ∧ s.reg MIPS_R_A0 = 0
  | brk => s.reg MIPS_R_A3 = 0
  | setTidAddress => s.reg MIPS_R_A3 = 0
  | setThreadArea => s.reg MIPS_R_A3 = 0
  | lseek => ∃ n < 2 ^ 32, outcome host s lseek = .success n ∧ s.reg MIPS_R_A3 = 0
  | writev =>
      (outcome host s writev ≠ .failure ∧ failures (writevCallReplies host s) = 0 ∧
        (takenBytes (writevCallReplies host s)).length < 2 ^ 32 ∧ s.reg MIPS_R_A3 = 0) ∨
      (outcome host s writev = .failure ∧ s.reg MIPS_R_A3 = 1 ∧
        ∃ e, 1 ≤ e ∧ e ≤ 4095 ∧ (takenBytes (writevCallReplies host s)).length % 2 ^ 32 =
          (e + failures (writevCallReplies host s)) % 2 ^ 32)
  | c => outcome host s c ≠ .failure ∧ s.reg MIPS_R_A3 = 0

end Syscall

/-! ### Handlers that set `V0` only -/

/-- The call left every register but `V0`, which is `v`. -/
structure OnlyV0 (s t : Machine) (v : U32) : Prop where
  v0 : t.reg MIPS_R_V0 = v
  others : ∀ r : Reg, r ≠ MIPS_R_V0 → t.reg r = s.reg r

/-- `V0` set on a machine with the same registers. -/
theorem OnlyV0.of_setReg {s u : Machine} (h : ∀ r, u.reg r = s.reg r) (v : U32) :
    OnlyV0 s (u.setReg MIPS_R_V0 v) v :=
  ⟨by rw [Machine.reg_setReg, if_pos rfl], fun r hr => (reg_setReg_of_ne hr u v).trans (h r)⟩

/-- The registers of such a call, against its outcome. -/
theorem OnlyV0.follows_iff {s t : Machine} {v : U32} (h : OnlyV0 s t v) (outcome : Outcome) :
    FollowsConvention outcome s t ↔
      match outcome with
      | .success n => v.toNat = n ∧ s.reg MIPS_R_A3 = 0
      | .failure => IsErrorNumber v ∧ s.reg MIPS_R_A3 = 1 := by
  have hothers : ∀ r : Reg, r.val < 32 → r ≠ MIPS_R_V0 → r ≠ MIPS_R_A3 → t.reg r = s.reg r :=
    fun r _ hr _ => h.others r hr
  have ha3 : t.reg MIPS_R_A3 = s.reg MIPS_R_A3 := h.others _ (by decide)
  have hreturned : FollowsConvention outcome s t ↔ outcome.Returned t :=
    ⟨fun hf => hf.returned, fun hr => ⟨hr, hothers⟩⟩
  rw [hreturned]
  cases outcome with
  | success n => rw [Outcome.Returned, ha3, h.v0, and_comm]
  | failure => rw [Outcome.Returned, ha3, h.v0, and_comm]

/-- A handler that gives its result when it succeeds and no error number when it fails: the
flag has to be clear before the call, and the call has to succeed. -/
theorem OnlyV0.follows_iff_of_result {s t : Machine} {v : U32} (h : OnlyV0 s t v) {outcome : Outcome}
    (hsuccess : ∀ n, outcome = .success n → v.toNat = n)
    (hfailure : outcome = .failure → ¬IsErrorNumber v) :
    FollowsConvention outcome s t ↔ outcome ≠ .failure ∧ s.reg MIPS_R_A3 = 0 := by
  rw [h.follows_iff]
  cases outcome with
  | success n => exact and_congr_left fun _ => iff_of_true (hsuccess n rfl) Outcome.noConfusion
  | failure => exact iff_of_false (fun hf => hfailure rfl hf.1) fun hf => hf.1 rfl

/-- `-1` is no error number. -/
theorem not_isErrorNumber_neg_one : ¬IsErrorNumber (-1) := fun h => absurd h.2 (by decide)

/-- `EINVAL` is one. -/
theorem isErrorNumber_einval : IsErrorNumber 22 := ⟨by decide, by decide⟩

section Handlers

variable {host : Host} {s t : Machine}

theorem read_onlyV0 {fd address size : U32} (h : mipsSyscallRead host s fd address size = .ok t) :
    OnlyV0 s t (countResult (readReply host s fd size).count) := by
  obtain ⟨memory, -, h⟩ := bind_eq_ok.mp h
  cases h
  exact ⟨rfl, fun r hr => if_neg hr⟩

theorem write_onlyV0 {fd address size : U32}
    (h : mipsSyscallWrite host s fd address size = .ok t) :
    OnlyV0 s t (writeAnswer host s.calls fd (flatBytes s.memory address size.toNat)).result := by
  obtain ⟨buffer, hbuffer, h⟩ := bind_eq_ok.mp h
  cases h
  rw [← (memoryCopyRead_ok hbuffer).2, writeAnswer, ← countResult_eq]
  exact ⟨rfl, fun r hr => if_neg hr⟩

theorem open_onlyV0
    (h : mipsSyscallOpen host s (s.reg MIPS_R_A0) (s.reg MIPS_R_A1) (s.reg MIPS_R_A2) = .ok t) :
    OnlyV0 s t (openAnswer host s) := by
  obtain ⟨size, hsize, h⟩ := bind_eq_ok.mp h
  obtain ⟨buffer, hbuffer, h⟩ := bind_eq_ok.mp h
  by_cases hzero : 0 ∈ buffer
  swap
  · rw [if_neg hzero] at h
    cases h
  rw [if_pos hzero] at h
  cases h
  -- The name is the string in guest memory.
  have hname : guestString s.memory (s.reg MIPS_R_A0) = buffer.takeWhile (· ≠ 0) := by
    rw [(memoryCopyRead_ok hbuffer).2, guestString, hsize]
  rw [openAnswer, hname]
  exact ⟨rfl, fun r hr => if_neg hr⟩

theorem ioctl_onlyV0 {fd request argp : U32}
    (h : mipsSyscallIoctl host s fd request argp = .ok t) :
    OnlyV0 s t (match (host s.calls (.ioctl fd) : Option Winsize) with
      | none => -25
      | some _ => 0) := by
  unfold mipsSyscallIoctl at h
  split_ifs at h with hrequest
  dsimp only [Machine.call] at h
  cases hreply : (host s.calls (.ioctl fd) : Option Winsize) with
  | none =>
      rw [hreply] at h
      cases h
      exact ⟨rfl, fun r hr => if_neg hr⟩
  | some ws =>
      rw [hreply] at h
      obtain ⟨m₁, -, h⟩ := bind_eq_ok.mp h
      obtain ⟨m₂, -, h⟩ := bind_eq_ok.mp h
      obtain ⟨m₃, -, h⟩ := bind_eq_ok.mp h
      obtain ⟨m₄, -, h⟩ := bind_eq_ok.mp h
      cases h
      exact ⟨rfl, fun r hr => if_neg hr⟩

theorem writev_onlyV0 {fd ptr cnt : U32} (h : mipsSyscallWritev host s fd ptr cnt = .ok t) :
    OnlyV0 s t (writeTotal (writevReplies host s fd ptr cnt)) := by
  obtain ⟨r, hloop, -⟩ := bind_eq_ok.mp h
  obtain ⟨u, hrun, hsame, -⟩ := mipsSyscallWritev_eq host s fd ptr cnt
    fun c hc => BitVec.zero_add (BitVec.ofNat 32 c) ▸ writevLoop_ok host fd ptr hloop c hc
  cases hrun.symm.trans h
  exact .of_setReg (fun r => by rw [hsame]; rfl) _

theorem brk_onlyV0 (s : Machine) (brk : U32) : ∃ v : U32, OnlyV0 s (mipsSyscallBrk s brk) v ∧
    v.toNat = max brk.toNat s.memory.brkHeapEnd.toNat := by
  refine ⟨if brk > s.memory.brkHeapEnd then brk else s.memory.brkHeapEnd,
    ⟨?_, fun r hr => if_neg hr⟩, ?_⟩
  · show (if brk > s.memory.brkHeapEnd then _ else s.memory : Memory).brkHeapEnd = _
    split <;> rfl
  · by_cases hgrow : brk > s.memory.brkHeapEnd
    · rw [if_pos hgrow]
      exact (Nat.max_eq_left (Nat.le_of_lt (BitVec.lt_def.mp hgrow))).symm
    · rw [if_neg hgrow]
      exact (Nat.max_eq_right (Nat.not_lt.mp fun h => hgrow (BitVec.lt_def.mpr h))).symm

/-! ### Results in a register -/

/-- A transfer count below `2 ^ 32`. -/
theorem ofCount_result {w : HostWrite} (hlt : ∀ n, w.count = some n → n < 2 ^ 32) :
    (∀ n, Outcome.ofCount w.count = .success n → w.result.toNat = n) ∧
      (Outcome.ofCount w.count = .failure → ¬IsErrorNumber w.result) := by
  unfold HostWrite.result
  cases hcount : w.count with
  | none => exact ⟨fun n h => Outcome.noConfusion h, fun _ => not_isErrorNumber_neg_one⟩
  | some k =>
      refine ⟨fun n h => ?_, fun h => Outcome.noConfusion h⟩
      cases h
      rw [BitVec.toNat_ofNat, Nat.mod_eq_of_lt (hlt k hcount)]

/-- An `int`. -/
theorem ofInt_result (v : U32) :
    (∀ n, Outcome.ofInt v = .success n → v.toNat = n) ∧
      (Outcome.ofInt v = .failure → ¬IsErrorNumber v) := by
  unfold Outcome.ofInt
  by_cases hv : v = -1
  · rw [if_pos hv, hv]
    exact ⟨fun n h => Outcome.noConfusion h, fun _ => not_isErrorNumber_neg_one⟩
  · rw [if_neg hv]
    refine ⟨fun n h => ?_, fun h => Outcome.noConfusion h⟩
    cases h
    rfl

/-! ### Each call -/

/-- The total of `writev` is an error number exactly when the bytes taken happen to exceed the
failures by one. -/
theorem isErrorNumber_writeTotal_iff {ws : List HostWrite} (hcounted : Counted ws) :
    IsErrorNumber (writeTotal ws) ↔ ∃ e, 1 ≤ e ∧ e ≤ 4095 ∧
      (takenBytes ws).length % 2 ^ 32 = (e + failures ws) % 2 ^ 32 := by
  have hsum := toNat_writeTotal hcounted
  constructor
  · intro ⟨hle, hge⟩
    exact ⟨_, hle, hge, hsum.symm⟩
  · rintro ⟨e, hle, hge, heq⟩
    have htotal := (writeTotal ws).isLt
    have he : (writeTotal ws).toNat = e := by omega
    rw [← he] at hle hge
    exact ⟨hle, hge⟩

/-- `lseek`, whose 64-bit result loses its upper half. -/
theorem lseek_follows_iff (h : Syscall.lseek.run host s = .ok t) :
    FollowsConvention (Syscall.lseek.outcome host s) s t ↔ Syscall.lseek.Conforms host s := by
  let reply : U64 :=
    host s.calls (.lseek (s.reg MIPS_R_A0) (s.reg MIPS_R_A1) (s.reg MIPS_R_A2))
  have honly : OnlyV0 s t (reply.setWidth 32) := by
    cases h
    exact ⟨rfl, fun r hr => if_neg hr⟩
  rw [honly.follows_iff]
  show _ ↔ ∃ n < 2 ^ 32, Outcome.ofInt reply = .success n ∧ s.reg MIPS_R_A3 = 0
  rw [show Syscall.lseek.outcome host s = Outcome.ofInt reply from rfl]
  unfold Outcome.ofInt
  by_cases hreply : reply = -1
  · -- The low half of `-1` is `-1`.
    rw [if_pos hreply, hreply]
    refine iff_of_false (fun hf => not_isErrorNumber_neg_one hf.1) ?_
    rintro ⟨n, -, hn, -⟩
    cases hn
  · -- An offset keeps its value in `V0` when it has no upper half.
    rw [if_neg hreply]
    show (reply.setWidth 32).toNat = reply.toNat ∧ _ ↔ _
    rw [BitVec.toNat_setWidth]
    constructor
    · rintro ⟨heq, hflag⟩
      exact ⟨reply.toNat, by omega, rfl, hflag⟩
    · rintro ⟨n, hn, heq, hflag⟩
      cases heq
      exact ⟨Nat.mod_eq_of_lt hn, hflag⟩

/-- `writev`. -/
theorem writev_follows_iff (h : Syscall.writev.run host s = .ok t) :
    FollowsConvention (Syscall.writev.outcome host s) s t ↔ Syscall.writev.Conforms host s := by
  obtain ⟨hcounted, hlength⟩ : Counted (writevCallReplies host s) ∧
      (writevCallReplies host s).length < 2 ^ 32 := writevReplies_counted host s _ _ _
  have hresult := writeTotal_eq_length_iff hcounted hlength
  have herror := isErrorNumber_writeTotal_iff hcounted
  have honly : OnlyV0 s t (writeTotal (writevCallReplies host s)) := writev_onlyV0 h
  rw [honly.follows_iff]
  have houtcome : Syscall.writev.outcome host s =
      if FirstFails (writevCallReplies host s) then .failure
      else .success (takenBytes (writevCallReplies host s)).length := rfl
  unfold Syscall.Conforms
  rw [houtcome]
  by_cases hfirst : FirstFails (writevCallReplies host s)
  · -- A failure: the total has to be an error number, under a flag that is set.
    rw [if_pos hfirst]
    show IsErrorNumber _ ∧ _ ↔ _
    rw [herror]
    constructor
    · intro ⟨hnumber, hflag⟩
      exact .inr ⟨rfl, hflag, hnumber⟩
    · rintro (⟨hfail, -⟩ | ⟨-, hflag, hnumber⟩)
      · exact absurd rfl hfail
      · exact ⟨hnumber, hflag⟩
  · -- A success: the total has to be the bytes taken.
    rw [if_neg hfirst]
    show (writeTotal (writevCallReplies host s)).toNat = _ ∧ _ ↔ _
    rw [hresult]
    constructor
    · intro ⟨⟨hnone, hlt⟩, hflag⟩
      exact .inl ⟨Outcome.noConfusion, hnone, hlt, hflag⟩
    · rintro (⟨-, hnone, hlt, hflag⟩ | ⟨hfail, -⟩)
      · exact ⟨⟨hnone, hlt⟩, hflag⟩
      · cases hfail

/-- `munmap` clears `A0` in the place of the flag. -/
theorem munmap_follows_iff (h : Syscall.munmap.run host s = .ok t) :
    FollowsConvention (Syscall.munmap.outcome host s) s t ↔ Syscall.munmap.Conforms host s := by
  cases h
  constructor
  · intro hf
    exact ⟨hf.returned.1, (hf.others MIPS_R_A0 (by decide) (by decide) (by decide)).symm⟩
  · rintro ⟨hflag, ha0⟩
    refine ⟨⟨hflag, rfl⟩, fun r _ hv0 _ => ?_⟩
    by_cases hr : r = MIPS_R_A0
    · rw [hr, ha0]
      rfl
    · rw [mipsSyscallMunmap, reg_setReg_of_ne hr, reg_setReg_of_ne hv0]

/-- A handler that sets both registers. -/
theorem follows_of_both {outcome : Outcome} {u : Machine} {v e : U32}
    (hu : ∀ r, r ≠ MIPS_R_V0 → r ≠ MIPS_R_A3 → u.reg r = s.reg r)
    (ht : t = (u.setReg MIPS_R_V0 v).setReg MIPS_R_A3 e) (h : outcome.Returned t) :
    FollowsConvention outcome s t := by
  refine ⟨h, fun r _ hv0 ha3 => ?_⟩
  rw [ht, reg_setReg_of_ne ha3, reg_setReg_of_ne hv0, hu r hv0 ha3]

/-- `clock_gettime64` sets the failure first and takes it back. -/
theorem clockGettime64_follows (h : Syscall.clockGettime64.run host s = .ok t) :
    FollowsConvention (Syscall.clockGettime64.outcome host s) s t := by
  have hrun : mipsSyscallClockGettime64 host s (s.reg MIPS_R_A0) (s.reg MIPS_R_A1) = .ok t := h
  have houtcome : Syscall.clockGettime64.outcome host s = .ofAnswer
      (host s.calls (.clockGettime (s.reg MIPS_R_A0)) : Option Timespec) := rfl
  unfold mipsSyscallClockGettime64 at hrun
  dsimp only [Machine.call] at hrun
  rw [houtcome]
  cases hreply : (host s.calls (.clockGettime (s.reg MIPS_R_A0)) : Option Timespec) with
  | none =>
      -- What was set before the call stays: `EINVAL`, with the flag.
      rw [show host ((s.setReg MIPS_R_V0 22).setReg MIPS_R_A3 1).calls _ = _ from hreply] at hrun
      cases hrun
      exact follows_of_both (u := { s with calls := .clockGettime (s.reg MIPS_R_A0) :: s.calls })
        (fun _ _ _ => rfl) rfl ⟨rfl, isErrorNumber_einval⟩
  | some ts =>
      rw [show host ((s.setReg MIPS_R_V0 22).setReg MIPS_R_A3 1).calls _ = _ from hreply] at hrun
      obtain ⟨m₁, -, hrun⟩ := bind_eq_ok.mp hrun
      obtain ⟨m₂, -, hrun⟩ := bind_eq_ok.mp hrun
      obtain ⟨m₃, -, hrun⟩ := bind_eq_ok.mp hrun
      obtain ⟨m₄, -, hrun⟩ := bind_eq_ok.mp hrun
      cases hrun
      refine follows_of_both (fun r hv0 ha3 => ?_) rfl ⟨rfl, rfl⟩
      exact (reg_setReg_of_ne ha3 _ 1).trans (reg_setReg_of_ne hv0 s 22)

theorem mmap2_follows (h : Syscall.mmap2.run host s = .ok t) :
    FollowsConvention (Syscall.mmap2.outcome host s) s t := by
  have hrun : mipsSyscallMmap2 s (s.reg MIPS_R_A1) = .ok t := h
  simp only [mipsSyscallMmap2] at hrun
  obtain ⟨fd, -, hrun⟩ := bind_eq_ok.mp hrun
  obtain ⟨pgoff, -, hrun⟩ := bind_eq_ok.mp hrun
  split_ifs at hrun
  obtain ⟨memory, -, hrun⟩ := bind_eq_ok.mp hrun
  cases hrun
  refine follows_of_both ?_ rfl ⟨rfl, rfl⟩
  exact fun _ _ _ => rfl

theorem read_follows_iff (h : Syscall.read.run host s = .ok t) :
    FollowsConvention (Syscall.read.outcome host s) s t ↔ Syscall.read.Conforms host s := by
  let w : HostWrite :=
    ⟨0, [], (readReply host s (s.reg MIPS_R_A0) (s.reg MIPS_R_A2)).count.map Fin.val⟩
  have honly := read_onlyV0 h
  rw [countResult_eq _ 0 []] at honly
  obtain ⟨hsuccess, hfailure⟩ := ofCount_result (w := w) fun n hn => by
    obtain ⟨k, -, rfl⟩ := Option.map_eq_some_iff.mp hn
    omega
  exact honly.follows_iff_of_result hsuccess hfailure

theorem write_follows_iff (h : Syscall.write.run host s = .ok t) :
    FollowsConvention (Syscall.write.outcome host s) s t ↔ Syscall.write.Conforms host s := by
  obtain ⟨hsuccess, hfailure⟩ := ofCount_result (w := writeCallAnswer host s) fun n hn => by
    obtain ⟨k, -, rfl⟩ := Option.map_eq_some_iff.mp hn
    have hk := k.isLt
    have hlength := length_flatBytes s.memory (s.reg MIPS_R_A1) (s.reg MIPS_R_A2).toNat
    omega
  exact (write_onlyV0 h).follows_iff_of_result hsuccess hfailure

/-- `ioctl` answers a failure with `-25`, the error number with the wrong sign. -/
theorem ioctl_follows_iff (h : Syscall.ioctl.run host s = .ok t) :
    FollowsConvention (Syscall.ioctl.outcome host s) s t ↔ Syscall.ioctl.Conforms host s := by
  have honly := ioctl_onlyV0 h
  have houtcome : Syscall.ioctl.outcome host s = .ofAnswer
    (host s.calls (.ioctl (s.reg MIPS_R_A0)) : Option Winsize) := rfl
  show _ ↔ Syscall.ioctl.outcome host s ≠ .failure ∧ _
  rw [houtcome]
  cases hreply : (host s.calls (.ioctl (s.reg MIPS_R_A0)) : Option Winsize) with
  | none =>
      rw [hreply] at honly
      exact honly.follows_iff_of_result (fun n hn => Outcome.noConfusion hn)
        fun _ hnumber => absurd (show (-25 : U32).toNat ≤ 4095 from hnumber.2) (by decide)
  | some ws =>
      rw [hreply] at honly
      exact honly.follows_iff_of_result (fun n hn => Outcome.success.inj hn)
        fun hf => Outcome.noConfusion hf

/-- A call that cannot fail needs the flag to be clear. -/
theorem OnlyV0.follows_success_iff {v : U32} {n : Nat} (h : OnlyV0 s t v) (hv : v.toNat = n) :
    FollowsConvention (.success n) s t ↔ s.reg MIPS_R_A3 = 0 := by
  rw [h.follows_iff]
  exact and_iff_right hv

/-- Every call that returns. -/
theorem Syscall.follows_iff (c : Syscall) (h : c.run host s = .ok t) :
    FollowsConvention (c.outcome host s) s t ↔ c.Conforms host s := by
  cases c with
  -- The calls that transfer: the host decides between success and failure.
  | read => exact read_follows_iff h
  | write => exact write_follows_iff h
  | «open» => exact (open_onlyV0 h).follows_iff_of_result (ofInt_result _).1 (ofInt_result _).2
  | close =>
      have honly : OnlyV0 s t (host s.calls (.close (s.reg MIPS_R_A0)) : U32) := by
        cases h
        exact ⟨rfl, fun r hr => if_neg hr⟩
      exact honly.follows_iff_of_result (ofInt_result _).1 (ofInt_result _).2
  | lseek => exact lseek_follows_iff h
  | ioctl => exact ioctl_follows_iff h
  | writev => exact writev_follows_iff h
  -- `brk` and the two thread calls always succeed, and leave `A3` as it was.
  | brk =>
      cases h
      obtain ⟨v, honly, hv⟩ := brk_onlyV0 s (s.reg MIPS_R_A0)
      exact honly.follows_success_iff hv
  | mmap2 => exact iff_of_true (mmap2_follows h) trivial
  | munmap => exact munmap_follows_iff h
  | mprotect =>
      cases h
      exact iff_of_true (follows_of_both (fun _ _ _ => rfl) rfl ⟨rfl, rfl⟩) trivial
  | clockGettime64 => exact iff_of_true (clockGettime64_follows h) trivial
  | setTidAddress =>
      cases h
      have honly : OnlyV0 s (mipsSyscallTidAddr s (s.reg MIPS_R_A0)) 1 :=
        ⟨rfl, fun r hr => if_neg hr⟩
      exact honly.follows_success_iff rfl
  | setThreadArea =>
      cases h
      have honly : OnlyV0 s (mipsSyscallSetThreadArea s (s.reg MIPS_R_A0)) 0 :=
        ⟨rfl, fun r hr => if_neg hr⟩
      exact honly.follows_success_iff rfl

end Handlers

/-- For every `SYSCALL` that returns to the guest: which call it is, and when its registers
follow the convention. -/
theorem syscall_convention_iff (host : Host) (cir : U32) (s t : Machine)
    (h : execute host .syscall cir s = .ok t) (hexit : s.reg MIPS_R_V0 ≠ NR_exit)
    (hgroup : s.reg MIPS_R_V0 ≠ NR_exit_group) :
    ∃ c : Syscall, s.reg MIPS_R_V0 = c.number ∧
      (FollowsConvention (c.outcome host s) s t ↔ c.Conforms host s) := by
  obtain ⟨c, hnumber, hrun⟩ := Syscall.of_execute h hexit hgroup
  exact ⟨c, hnumber, c.follows_iff hrun⟩

/-- A machine about to make a call, with the flag clear. -/
def callMachine (c : Syscall) : Machine :=
  (⟨Mips.zero, Memory.empty, []⟩ : Machine).setReg MIPS_R_V0 c.number

theorem syscall_convention_iff_setTidAddress :
    FollowsConvention (.success 1) (callMachine .setTidAddress)
      (mipsSyscallTidAddr (callMachine .setTidAddress) 0) := by
  obtain ⟨c, hnumber, hiff⟩ := syscall_convention_iff failingHost 0x0000000c
    (callMachine .setTidAddress) (mipsSyscallTidAddr (callMachine .setTidAddress) 0) rfl
    (by decide) (by decide)
  have hc : c = .setTidAddress := by
    revert hnumber
    cases c <;> decide
  subst hc
  exact hiff.2 rfl

/-- A `close` that fails returns `0xffffffff` with the flag clear. -/
theorem close_failure_unflagged :
    ¬ ∀ (host : Host) (cir : U32) (s t : Machine), execute host .syscall cir s = .ok t →
      s.reg MIPS_R_V0 ≠ NR_exit → s.reg MIPS_R_V0 ≠ NR_exit_group →
      ∀ c : Syscall, s.reg MIPS_R_V0 = c.number → FollowsConvention (c.outcome host s) s t := by
  intro h
  have hfollows := h failingHost 0x0000000c (callMachine .close)
    (mipsSyscallClose failingHost (callMachine .close) 0) rfl (by decide) (by decide) .close rfl
  exact absurd hfollows.returned.1 (by decide)

end MipsEngines
