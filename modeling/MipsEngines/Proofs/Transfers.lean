import Mathlib.Data.BitVec
import MipsEngines.Model.Engines
import MipsEngines.Proofs.WordAccess

/-!
# `MipsEngines.Proofs.Transfers`: what `read` and `writev` move

`mips_syscall_read` copies its whole transfer buffer into the guest, whatever the host
delivered: `read_touches_iff` says when the rest of the buffer does not show.

`mips_syscall_writev` makes one host call for each buffer that is not empty and adds up
the results. `writevLoop_eq` is what the loop does, for any answers of the host, and
`writev_gathered_iff` says for which answers that is one gathered write.
-/

set_option autoImplicit false

namespace MipsEngines

open Lib

/-! ### `read` -/

/-- The number of bytes the host put in the buffer, `max(r, 0)`. -/
def ReadReply.delivered {size : U32} (reply : ReadReply size) : Nat :=
  match reply.count with
  | none => 0
  | some n => n.val

theorem ReadReply.delivered_le {size : U32} (reply : ReadReply size) :
    reply.delivered ≤ size.toNat := by
  unfold ReadReply.delivered
  cases reply.count with
  | none => exact Nat.zero_le _
  | some n => exact Nat.lt_succ_iff.mp n.isLt

theorem ReadReply.buffer_eq {size : U32} (reply : ReadReply size) (i : Nat) :
    reply.buffer i = if i < reply.delivered then reply.data i else reply.fresh i := by
  unfold ReadReply.buffer ReadReply.delivered
  cases reply.count with
  | none => rfl
  | some n => rfl

/-- The answer that `read` gets. -/
def readReply (host : Host) (s : Machine) (fd size : U32) : ReadReply size :=
  host s.calls (.read fd size)

/-- `read` stores the bytes the host delivered, and no other byte changes. -/
def ReadTouchesDelivered (host : Host) (s : Machine) (fd address size : U32) : Prop :=
  ∃ t, mipsSyscallRead host s fd address size = .ok t ∧
    WritesBytes s.memory address (readReply host s fd size).delivered
      (readReply host s fd size).data (.ok t.memory)

/-- What the handler stores: the whole buffer. -/
theorem mipsSyscallRead_eq (host : Host) (s : Machine) (fd address size : U32)
    (hmapped : MappedRange s.memory address size.toNat) :
    ∃ t, mipsSyscallRead host s fd address size = .ok t ∧ flat t.memory =
      (flat s.memory).write (rangeData address size.toNat (readReply host s fd size).buffer) := by
  obtain ⟨memory, hcopy, hflat⟩ := memoryCopyWrite_eq (readReply host s fd size).buffer hmapped
  refine ⟨((s.call host (.read fd size)).2.setReg MIPS_R_V0
    (countResult (readReply host s fd size).count)).setMemory memory, ?_, hflat⟩
  unfold mipsSyscallRead
  show (memoryCopyWrite s.memory address size (readReply host s fd size).buffer >>= _) = _
  rw [hcopy]
  rfl

/-- A write of `m` bytes shows as one of the first `n` exactly when the other bytes were there
before. -/
theorem write_longer_iff {memory : Memory} {a : U32} {n m : Nat} {long short : Nat → U8}
    (hmapped : MappedRange memory a m) (hm : m < 2 ^ 32) (hle : n ≤ m)
    (hfirst : ∀ i < n, long i = short i) :
    (flat memory).write (rangeData a m long) = (flat memory).write (rangeData a n short) ↔
      ∀ i, n ≤ i → i < m → memoryReadU8 memory (a + BitVec.ofNat 32 i) = .ok (long i) := by
  rw [Store.write_eq_write_iff]
  unfold rangeData
  constructor
  · intro h i hi him
    -- At byte `i` only the longer write writes.
    obtain ⟨y, hy⟩ := hmapped.byte i him
    have hbyte := h _ y hy
    rw [toNat_add_sub a (by omega), if_pos him, if_neg (by omega)] at hbyte
    rw [memoryReadU8_eq hy]
    exact congrArg Except.ok hbyte.symm
  · intro h x y hy
    -- Below `n` the two agree, from `n` to `m` the byte is already there.
    by_cases hin : (x - a).toNat < m
    · rw [if_pos hin]
      by_cases hn : (x - a).toNat < n
      · rw [if_pos hn, hfirst _ hn]
      · rw [if_neg hn]
        have hbyte := h _ (Nat.not_lt.mp hn) hin
        rw [add_sub_toNat, memoryReadU8_eq hy] at hbyte
        exact (Except.ok.inj hbyte).symm
    · rw [if_neg hin, if_neg (by omega)]

/-- `read` touches only what it delivers exactly when the rest of the transfer buffer, which
`malloc` left uninitialised, happens to equal the guest's bytes. With a full read there is
no rest. -/
theorem read_touches_iff (host : Host) (s : Machine) (fd address size : U32)
    (hmapped : MappedRange s.memory address size.toNat) :
    ReadTouchesDelivered host s fd address size ↔
      ∀ i, (readReply host s fd size).delivered ≤ i → i < size.toNat →
        memoryReadU8 s.memory (address + BitVec.ofNat 32 i) =
          .ok ((readReply host s fd size).fresh i) := by
  obtain ⟨t, ht, hflat⟩ := mipsSyscallRead_eq host s fd address size hmapped
  have hle := (readReply host s fd size).delivered_le
  have hbuffer := (readReply host s fd size).buffer_eq
  unfold ReadTouchesDelivered
  generalize readReply host s fd size = reply at *
  have hdelivered : MappedRange s.memory address reply.delivered :=
    fun i hi => hmapped i (Nat.lt_of_lt_of_le hi hle)
  -- The property is an equality of two writes, one of the buffer and one of the data.
  have hwrites : (∃ t, mipsSyscallRead host s fd address size = .ok t ∧
      WritesBytes s.memory address reply.delivered reply.data (.ok t.memory)) ↔
      (flat s.memory).write (rangeData address size.toNat reply.buffer) =
        (flat s.memory).write (rangeData address reply.delivered reply.data) := by
    rw [← hflat, ← writesBytes_ok_iff hdelivered]
    constructor
    · rintro ⟨t', ht', hbytes⟩
      cases ht.symm.trans ht'
      exact hbytes
    · exact fun hbytes => ⟨t, ht, hbytes⟩
  have hdata : ∀ i < reply.delivered, reply.buffer i = reply.data i := by
    intro i hi
    rw [hbuffer, if_pos hi]
  rw [hwrites, write_longer_iff hmapped size.isLt hle hdata]
  -- Past the data the buffer is as `malloc` left it.
  refine forall_congr' fun i => forall_congr' fun hi => ?_
  rw [hbuffer, if_neg (Nat.not_lt.mpr hi)]

/-- A host whose `read` fails, with `0xa5` in the fresh buffer. -/
def freshHost : Host := fun calls call =>
  match call with
  | .read _ _ => ⟨none, fun _ => 0, fun _ => 0xa5⟩
  | call => failingHost calls call

/-- A machine with two mapped pages of zeros. -/
def pagesMachine : Machine := ⟨Mips.zero, twoPages, []⟩

theorem mapped_pagesMachine : MappedRange pagesMachine.memory 0x10ffe 4 := mapped_twoPages

/-- A host that delivers two bytes to a `read`. Behind them are the last bytes of `0x44332211`. -/
def partialHost : Host := fun calls call =>
  match call with
  | .read _ _ => ⟨some (Fin.ofNat _ 2), fun _ => 0xa5, fun i => BitVec.ofNat 8 (0x11 * (i + 1))⟩
  | call => failingHost calls call

/-- A read of four bytes over that word, of which two are delivered. -/
theorem read_touches_iff_partial :
    (readReply partialHost (program 0x400000 [0x44332211]) 0 4).delivered = 2 ∧
      ReadTouchesDelivered partialHost (program 0x400000 [0x44332211]) 0 0x400000 4 := by
  have hmapped : Mapped (program 0x400000 [0x44332211]).memory 0x400000 := by
    unfold Mapped
    decide +kernel
  have hrest : ∀ i : Fin 4, 2 ≤ i.val →
      flat (program 0x400000 [0x44332211]).memory (0x400000 + BitVec.ofNat 32 i.val)
        = some (BitVec.ofNat 8 (0x11 * (i.val + 1))) := by decide +kernel
  refine ⟨rfl, ?_⟩
  exact (read_touches_iff partialHost _ 0 0x400000 4 (hmapped.range (by decide))).mpr
    fun i hi hsize => memoryReadU8_eq (hrest ⟨i, hsize⟩ hi)

/-- A failed read of four bytes copies four bytes of the fresh buffer into the guest. -/
theorem read_copies_fresh :
    ¬ ∀ (host : Host) (s : Machine) (fd address size : U32),
      MappedRange s.memory address size.toNat → ReadTouchesDelivered host s fd address size := by
  intro h
  obtain ⟨t, ht, m, hm, hreads⟩ := h freshHost pagesMachine 0 0x10ffe 4 mapped_pagesMachine
  cases hm
  -- The read is to leave the zero there.
  have hkept : memoryReadU8 t.memory 0x10ffe = .ok 0 :=
    (hreads 0x10ffe).trans (memoryReadU8_eq (by decide +kernel))
  have hrun : okWith (fun t => okWith (· == 0xa5) (memoryReadU8 t.memory 0x10ffe))
      (mipsSyscallRead freshHost pagesMachine 0 0x10ffe 4) = true := by decide +kernel
  rw [ht] at hrun
  have hstored : okWith (· == 0xa5) (memoryReadU8 t.memory 0x10ffe) = true := hrun
  rw [hkept] at hstored
  cases hstored

/-! ### The writes of a run -/

/-- A `write` that reached the host: its data, and the count it returned. -/
structure HostWrite where
  fd : U32
  data : List U8
  count : Option Nat
  deriving DecidableEq

/-- The bytes the host took. -/
def HostWrite.taken (w : HostWrite) : List U8 := w.data.take (w.count.getD 0)

/-- Every byte was taken. -/
def HostWrite.Full (w : HostWrite) : Prop := w.count = some w.data.length

/-- What the host answers to a `write` after the calls made so far. -/
def writeAnswer (host : Host) (calls : List HostCall) (fd : U32) (data : List U8) : HostWrite :=
  let reply : Option (Fin (data.length + 1)) := host calls (.write fd data)
  ⟨fd, data, reply.map Fin.val⟩

/-- The writes in a log of calls, in the order they were made. -/
def logWrites (host : Host) : List HostCall → List HostWrite
  | [] => []
  | .write fd data :: calls => logWrites host calls ++ [writeAnswer host calls fd data]
  | _ :: calls => logWrites host calls

/-- The bytes that reach the host. -/
def takenBytes (ws : List HostWrite) : List U8 := ws.flatMap HostWrite.taken

/-- Nothing is taken after a short or failed write. -/
def StopsShort : List HostWrite → Prop
  | [] => True
  | w :: ws => (¬w.Full → takenBytes ws = []) ∧ StopsShort ws

/-- The first write fails. -/
def FirstFails (ws : List HostWrite) : Prop := ∃ w rest, ws = w :: rest ∧ w.count = none

/-- The number of writes that fail. -/
def failures (ws : List HostWrite) : Nat := ws.countP fun w => w.count.isNone

/-- Before the first short write whole buffers are taken, so all that is taken is a prefix. -/
theorem StopsShort.prefix_flatten {ws : List HostWrite} (h : StopsShort ws) :
    takenBytes ws <+: (ws.map HostWrite.data).flatten := by
  induction ws with
  | nil => exact List.prefix_refl _
  | cons w ws ih =>
      rw [takenBytes, List.flatMap_cons, List.map_cons, List.flatten_cons]
      by_cases hfull : w.Full
      · have htaken : w.taken = w.data := by
          rw [HostWrite.taken, hfull, Option.getD_some, List.take_length]
        rw [htaken]
        exact (List.prefix_append_right_inj _).2 (ih h.2)
      · rw [show ws.flatMap HostWrite.taken = [] from h.1 hfull, List.append_nil]
        exact (List.take_prefix _ _).trans (List.prefix_append _ _)

/-! ### The loop of `writev` -/

/-- The bytes of a range. -/
def flatBytes (memory : Memory) (a : U32) (n : Nat) : List U8 :=
  (List.range n).map fun i => flatByte memory (a + BitVec.ofNat 32 i)

/-- The address of entry `c` of an array of `struct iovec`. -/
def iovecAt (ptr c : U32) : U32 := ptr + c * 8

/-- The buffer that entry `c` names. -/
def iovecBuffer (memory : Memory) (ptr c : U32) : List U8 :=
  flatBytes memory (flatWord memory (iovecAt ptr c)) (flatWord memory (iovecAt ptr c + 4)).toNat

/-- Entry `c` and its buffer are mapped. -/
def IovecMapped (memory : Memory) (ptr c : U32) : Prop :=
  MappedRange memory (iovecAt ptr c) 8 ∧
    MappedRange memory (flatWord memory (iovecAt ptr c)) (flatWord memory (iovecAt ptr c + 4)).toNat

/-- The two words of entry `c` lie in one page each. -/
def IovecInPage (ptr c : U32) : Prop := InPage (iovecAt ptr c) 4 ∧ InPage (iovecAt ptr c + 4) 4

/-- The `cnt` buffers from entry `c` on, in order. -/
def iovecBuffers (memory : Memory) (ptr : U32) : Nat → U32 → List (List U8)
  | 0, _ => []
  | cnt + 1, c => iovecBuffer memory ptr c :: iovecBuffers memory ptr cnt (c + 1)

/-- The writes of buffers one after the other, the empty ones left out, with the answers
that the host gives. -/
def writeReplies (host : Host) (fd : U32) : List (List U8) → List HostCall → List HostWrite
  | [], _ => []
  | data :: buffers, calls =>
      if data = [] then writeReplies host fd buffers calls
      else writeAnswer host calls fd data ::
        writeReplies host fd buffers (.write fd data :: calls)

/-- The call that a write made. -/
def HostWrite.call (w : HostWrite) : HostCall := .write w.fd w.data

/-- What a write adds to the total. -/
def HostWrite.result (w : HostWrite) : U32 :=
  match w.count with
  | none => -1
  | some n => BitVec.ofNat 32 n

/-- The total of `writev`. -/
def writeTotal (ws : List HostWrite) : U32 := (ws.map HostWrite.result).sum

theorem length_flatBytes (memory : Memory) (a : U32) (n : Nat) :
    (flatBytes memory a n).length = n := by
  simp [flatBytes]

theorem memoryCopyRead_flatBytes {memory : Memory} {a size : U32}
    (h : MappedRange memory a size.toNat) :
    memoryCopyRead memory a size = .ok (flatBytes memory a size.toNat) :=
  memoryCopyRead_eq fun i hi => flat_eq_flatByte (h i hi)

/-- A count in a register, as the code and as the total have it. -/
theorem countResult_eq {n : Nat} (reply : Option (Fin n)) (fd : U32) (data : List U8) :
    countResult reply = (HostWrite.mk fd data (reply.map Fin.val)).result := by
  cases reply <;> rfl

/-- The second word of an entry is mapped with the first. -/
theorem MappedRange.drop {memory : Memory} {a : U32} {k n : Nat} (h : MappedRange memory a (k + n)) :
    MappedRange memory (a + BitVec.ofNat 32 k) n := by
  intro i hi
  rw [BitVec.add_assoc, ← BitVec.ofNat_add]
  exact h (k + i) (by omega)

theorem MappedRange.take {memory : Memory} {a : U32} {k n : Nat} (h : MappedRange memory a n)
    (hk : k ≤ n) : MappedRange memory a k := fun i hi => h i (by omega)

theorem iovecBuffer_eq_nil {memory : Memory} {ptr c : U32} :
    iovecBuffer memory ptr c = [] ↔ flatWord memory (iovecAt ptr c + 4) = 0 := by
  rw [← List.length_eq_zero_iff, iovecBuffer, length_flatBytes]
  exact BitVec.toNat_inj (y := 0)

theorem next_entry (c : U32) (k : Nat) :
    c + 1 + BitVec.ofNat 32 k = c + BitVec.ofNat 32 (k + 1) := by
  rw [BitVec.add_assoc, Nat.add_comm, BitVec.ofNat_add]
  rfl

/-- A word that can be read is mapped and lies in one page. -/
theorem memoryReadU32_ok {memory : Memory} {a w : U32} (h : memoryReadU32 memory a = .ok w) :
    MappedRange memory a 4 ∧ InPage a 4 := by
  obtain ⟨page, hpage, -⟩ := bind_eq_ok.mp h
  have hmapped : Mapped memory a := mapped_iff.2 ⟨page, memoryFindPage_eq_ok.1 hpage⟩
  by_cases hfit : InPage a 4
  · exact ⟨hmapped.range hfit, hfit⟩
  · rw [memoryReadU32_overrun hmapped hfit] at h
    cases h

/-- The reading loop gets through over mapped bytes only. -/
theorem copyReadLoop_mapped {fuel : Nat} {memory : Memory} {address size : U32} {bytes : List U8}
    (hfuel : size.toNat ≤ fuel) (h : copyReadLoop fuel memory address size = .ok bytes) :
    MappedRange memory address size.toNat := by
  induction fuel generalizing address size bytes with
  | zero =>
      intro i hi
      omega
  | succ fuel ih =>
      unfold copyReadLoop at h
      by_cases hsize : size = 0
      · intro i hi
        rw [hsize] at hi
        exact absurd hi (Nat.not_lt_zero i)
      · rw [if_neg hsize] at h
        obtain ⟨page, hpage, h⟩ := bind_eq_ok.mp h
        obtain ⟨rest, hrest, -⟩ := bind_eq_ok.mp h
        have hround := round_chunk address hsize
        have hpos := hround.pos
        have hle := hround.le
        have hpart := hround.rest
        have hinPage := hround.inPage
        generalize chunk address size = amount at *
        have hmapped : Mapped memory address := mapped_iff.2 ⟨page, memoryFindPage_eq_ok.1 hpage⟩
        have htail := ih (by omega) hrest
        intro i hi
        -- A byte of this round is in the page, the others are the loop's.
        by_cases hin : i < amount.toNat
        · exact (hmapped.range (n := i + 1) (by unfold InPage; omega)) i (Nat.lt_succ_self i)
        · have hbyte := htail (i - amount.toNat) (by omega)
          rwa [next_add, Nat.add_sub_cancel' (Nat.not_lt.mp hin)] at hbyte

/-- `memory_copy_read` gets through over mapped bytes, and then returns them. -/
theorem memoryCopyRead_ok {memory : Memory} {a size : U32} {bytes : List U8}
    (h : memoryCopyRead memory a size = .ok bytes) :
    MappedRange memory a size.toNat ∧ bytes = flatBytes memory a size.toNat := by
  have hmapped := copyReadLoop_mapped (Nat.le_refl _) h
  exact ⟨hmapped, Except.ok.inj (h.symm.trans (memoryCopyRead_flatBytes hmapped))⟩

section Loop

variable (host : Host) (fd ptr : U32)

/-- The machine after a `write`. -/
def afterWrite (s : Machine) (data : List U8) : Machine :=
  { s with calls := .write fd data :: s.calls }

/-- One round whose entry can be read. -/
theorem writevLoop_succ (cnt : Nat) {c total : U32} {s : Machine}
    (hmapped : IovecMapped s.memory ptr c) (hpage : IovecInPage ptr c) :
    writevLoop host fd ptr (cnt + 1) c total s =
      if iovecBuffer s.memory ptr c = [] then writevLoop host fd ptr cnt (c + 1) total s
      else writevLoop host fd ptr cnt (c + 1)
        (total + (writeAnswer host s.calls fd (iovecBuffer s.memory ptr c)).result)
        (afterWrite fd s (iovecBuffer s.memory ptr c)) := by
  have haddress := memoryReadU32_flatWord (hmapped.1.take (by decide)) hpage.1
  have hlength : memoryReadU32 s.memory (iovecAt ptr c + 4) = .ok _ :=
    memoryReadU32_flatWord (hmapped.1.drop (k := 4) (n := 4)) hpage.2
  rw [writevLoop, show ptr + c * 8 + 0 = iovecAt ptr c from BitVec.add_zero _, haddress, ok_bind,
    show ptr + c * 8 + 4 = iovecAt ptr c + 4 from rfl, hlength, ok_bind]
  by_cases hempty : flatWord s.memory (iovecAt ptr c + 4) = 0
  · rw [if_pos hempty, if_pos (iovecBuffer_eq_nil.2 hempty)]
  · rw [if_neg hempty, if_neg fun h => hempty (iovecBuffer_eq_nil.1 h),
      memoryCopyRead_flatBytes hmapped.2, ok_bind]
    show writevLoop host fd ptr cnt (c + 1) (total + countResult _) _ = _
    rw [countResult_eq _ fd (iovecBuffer s.memory ptr c)]
    rfl

/-- The loop, when every entry can be read: one write for each buffer that is not empty,
whatever the host answers. -/
theorem writevLoop_eq (cnt : Nat) {c total : U32} {s : Machine}
    (hmapped : ∀ k < cnt, IovecMapped s.memory ptr (c + BitVec.ofNat 32 k))
    (hpage : ∀ k < cnt, IovecInPage ptr (c + BitVec.ofNat 32 k)) :
    ∃ t, writevLoop host fd ptr cnt c total s = .ok
        (total + writeTotal (writeReplies host fd (iovecBuffers s.memory ptr cnt c) s.calls), t) ∧
      t = { s with calls := t.calls } ∧
      logWrites host t.calls = logWrites host s.calls ++
        writeReplies host fd (iovecBuffers s.memory ptr cnt c) s.calls := by
  induction cnt generalizing c total s with
  | zero =>
      refine ⟨s, ?_, rfl, ?_⟩
      · rw [writevLoop]
        simp [iovecBuffers, writeReplies, writeTotal]
      · simp [iovecBuffers, writeReplies]
  | succ cnt ih =>
      have hhead : IovecMapped s.memory ptr c := by simpa using hmapped 0 (by omega)
      have hpage₀ : IovecInPage ptr c := by simpa using hpage 0 (by omega)
      have hmapped' : ∀ k < cnt, IovecMapped s.memory ptr (c + 1 + BitVec.ofNat 32 k) :=
        fun k hk => next_entry c k ▸ hmapped (k + 1) (by omega)
      have hpage' : ∀ k < cnt, IovecInPage ptr (c + 1 + BitVec.ofNat 32 k) :=
        fun k hk => next_entry c k ▸ hpage (k + 1) (by omega)
      rw [writevLoop_succ host fd ptr cnt hhead hpage₀]
      by_cases hempty : iovecBuffer s.memory ptr c = []
      · -- An empty buffer makes no call.
        rw [if_pos hempty, iovecBuffers, writeReplies, if_pos hempty]
        exact ih hmapped' hpage'
      · rw [if_neg hempty, iovecBuffers, writeReplies, if_neg hempty]
        obtain ⟨t, ht, hcalls, hlog⟩ := @ih (c + 1)
          (total + (writeAnswer host s.calls fd (iovecBuffer s.memory ptr c)).result)
          (afterWrite fd s (iovecBuffer s.memory ptr c)) hmapped' hpage'
        refine ⟨t, ?_, hcalls, ?_⟩
        · rw [ht, BitVec.add_assoc]
          rfl
        · rw [hlog]
          exact List.append_assoc _ [_] _

/-- A round that gets through has read its entry and its buffer. -/
theorem writevLoop_succ_ok {cnt : Nat} {c total : U32} {s : Machine} {r : U32 × Machine}
    (h : writevLoop host fd ptr (cnt + 1) c total s = .ok r) :
    IovecMapped s.memory ptr c ∧ IovecInPage ptr c := by
  rw [writevLoop, show ptr + c * 8 + 0 = iovecAt ptr c from BitVec.add_zero _,
    show ptr + c * 8 + 4 = iovecAt ptr c + 4 from rfl] at h
  obtain ⟨address, haddress, h⟩ := bind_eq_ok.mp h
  obtain ⟨length, hlength, h⟩ := bind_eq_ok.mp h
  obtain ⟨hfirst, hpage⟩ := memoryReadU32_ok haddress
  obtain ⟨hsecond, hpage'⟩ := memoryReadU32_ok hlength
  -- The two words of the entry are its eight bytes.
  have hwords : MappedRange s.memory (iovecAt ptr c) 8 := by
    intro i hi
    by_cases hlow : i < 4
    · exact hfirst i hlow
    · have hat : iovecAt ptr c + 4 + BitVec.ofNat 32 (i - 4) = iovecAt ptr c + BitVec.ofNat 32 i := by
        rw [BitVec.add_assoc, show (4 : U32) = BitVec.ofNat 32 4 from rfl, ← BitVec.ofNat_add,
          Nat.add_sub_cancel' (Nat.not_lt.mp hlow)]
      exact hat ▸ hsecond (i - 4) (by omega)
  rw [memoryReadU32_flatWord hfirst hpage] at haddress
  rw [memoryReadU32_flatWord hsecond hpage'] at hlength
  cases haddress
  cases hlength
  refine ⟨⟨hwords, ?_⟩, hpage, hpage'⟩
  -- A buffer that is not empty has been copied, an empty one is no range.
  by_cases hempty : flatWord s.memory (iovecAt ptr c + 4) = 0
  · rw [hempty]
    exact fun i hi => absurd hi (Nat.not_lt_zero i)
  · rw [if_neg hempty] at h
    obtain ⟨buffer, hbuffer, -⟩ := bind_eq_ok.mp h
    exact (memoryCopyRead_ok hbuffer).1

/-- The same for the whole loop. -/
theorem writevLoop_ok {cnt : Nat} {c total : U32} {s : Machine} {r : U32 × Machine}
    (h : writevLoop host fd ptr cnt c total s = .ok r) :
    ∀ k < cnt, IovecMapped s.memory ptr (c + BitVec.ofNat 32 k) ∧
      IovecInPage ptr (c + BitVec.ofNat 32 k) := by
  induction cnt generalizing c total s with
  | zero => exact fun k hk => absurd hk (Nat.not_lt_zero k)
  | succ cnt ih =>
      obtain ⟨hmapped, hpage⟩ := writevLoop_succ_ok host fd ptr h
      have htail : ∀ k < cnt, IovecMapped s.memory ptr (c + 1 + BitVec.ofNat 32 k) ∧
          IovecInPage ptr (c + 1 + BitVec.ofNat 32 k) := by
        rw [writevLoop_succ host fd ptr cnt hmapped hpage] at h
        split at h
        · exact ih h
        · exact @ih _ _ (afterWrite fd s _) h
      intro k hk
      cases k with
      | zero => simpa using ⟨hmapped, hpage⟩
      | succ k => exact next_entry c k ▸ htail k (by omega)

end Loop

/-! ### The total -/

/-- No more bytes are counted than were given. -/
def Counted (ws : List HostWrite) : Prop :=
  ∀ w ∈ ws, ∀ n, w.count = some n → n ≤ w.data.length

/-- Each write has the answer that the host gives after the calls before it. -/
theorem mem_writeReplies {host : Host} {fd : U32} {buffers : List (List U8)}
    {calls : List HostCall} {w : HostWrite} (h : w ∈ writeReplies host fd buffers calls) :
    ∃ before data, w = writeAnswer host before fd data := by
  induction buffers generalizing calls with
  | nil => exact absurd h List.not_mem_nil
  | cons data buffers ih =>
      rw [writeReplies] at h
      split at h
      · exact ih h
      · rcases List.mem_cons.mp h with rfl | h
        · exact ⟨calls, data, rfl⟩
        · exact ih h

theorem counted_writeReplies (host : Host) (fd : U32) (buffers : List (List U8))
    (calls : List HostCall) : Counted (writeReplies host fd buffers calls) := by
  intro w hw n hn
  obtain ⟨before, data, rfl⟩ := mem_writeReplies hw
  obtain ⟨k, -, rfl⟩ := Option.map_eq_some_iff.mp hn
  exact Nat.lt_succ_iff.mp k.isLt

/-- The buffers that are written are those that are not empty. -/
theorem flatten_writeReplies (host : Host) (fd : U32) (buffers : List (List U8))
    (calls : List HostCall) :
    ((writeReplies host fd buffers calls).map HostWrite.data).flatten = buffers.flatten := by
  induction buffers generalizing calls with
  | nil => rfl
  | cons data buffers ih =>
      rw [writeReplies, List.flatten_cons]
      split
      · rename_i hempty
        rw [ih, hempty, List.nil_append]
      · rw [List.map_cons, List.flatten_cons, ih]
        rfl

theorem length_writeReplies_le (host : Host) (fd : U32) (buffers : List (List U8))
    (calls : List HostCall) : (writeReplies host fd buffers calls).length ≤ buffers.length := by
  induction buffers generalizing calls with
  | nil => exact Nat.le_refl _
  | cons data buffers ih =>
      rw [writeReplies]
      split
      · exact Nat.le_succ_of_le (ih calls)
      · exact Nat.succ_le_succ (ih _)

theorem length_iovecBuffers (memory : Memory) (ptr : U32) (cnt : Nat) (c : U32) :
    (iovecBuffers memory ptr cnt c).length = cnt := by
  induction cnt generalizing c with
  | zero => rfl
  | succ cnt ih => rw [iovecBuffers, List.length_cons, ih]

/-- The total counts the bytes taken up, and each failure as `-1`. -/
theorem writeTotal_add_failures {ws : List HostWrite} (h : Counted ws) :
    writeTotal ws + BitVec.ofNat 32 (failures ws) = BitVec.ofNat 32 (takenBytes ws).length := by
  induction ws with
  | nil => rfl
  | cons w ws ih =>
      have htail := ih fun w' hw' => h w' (List.mem_cons_of_mem w hw')
      have htotal : writeTotal (w :: ws) = w.result + writeTotal ws := List.sum_cons
      have htaken : (takenBytes (w :: ws)).length = w.taken.length + (takenBytes ws).length := by
        rw [takenBytes, List.flatMap_cons, List.length_append]
        rfl
      rw [htotal, htaken, BitVec.ofNat_add, ← htail]
      cases hcount : w.count with
      | none =>
          -- The `-1` of the failure against one failure more.
          have hfail : failures (w :: ws) = failures ws + 1 :=
            List.countP_cons_of_pos (by rw [hcount]; rfl)
          have hnone : w.taken.length = 0 := by simp [HostWrite.taken, hcount]
          rw [hfail, hnone, HostWrite.result, hcount, BitVec.ofNat_add]
          show (-1 : U32) + writeTotal ws + (BitVec.ofNat 32 (failures ws) + 1) = 0 + _
          bv_omega
      | some n =>
          -- The count of the write against its bytes.
          have hfail : failures (w :: ws) = failures ws :=
            List.countP_cons_of_neg (by rw [hcount]; simp)
          have hn : n ≤ w.data.length := h w List.mem_cons_self n hcount
          have hlength : w.taken.length = n := by
            rw [HostWrite.taken, hcount, Option.getD_some, List.length_take, Nat.min_eq_left hn]
          rw [hfail, hlength, HostWrite.result, hcount, BitVec.add_assoc]

/-- The same with natural numbers. -/
theorem toNat_writeTotal {ws : List HostWrite} (h : Counted ws) :
    ((writeTotal ws).toNat + failures ws) % 2 ^ 32 = (takenBytes ws).length % 2 ^ 32 := by
  have hsum := congrArg BitVec.toNat (writeTotal_add_failures h)
  rwa [BitVec.toNat_add, BitVec.toNat_ofNat, BitVec.toNat_ofNat, Nat.add_mod_mod] at hsum

/-- The total is the number of bytes taken exactly when nothing fails and it fits. -/
theorem writeTotal_eq_length_iff {ws : List HostWrite} (h : Counted ws)
    (hlength : ws.length < 2 ^ 32) :
    (writeTotal ws).toNat = (takenBytes ws).length ↔
      failures ws = 0 ∧ (takenBytes ws).length < 2 ^ 32 := by
  have hsum := toNat_writeTotal h
  have hfail : failures ws ≤ ws.length := List.countP_le_length
  have htotal := (writeTotal ws).isLt
  omega

/-! ### One gathered write -/

/-- A result in a register that the guest takes for an error. -/
def IsErrorResult (v : U32) : Prop := -4095 ≤ v.toInt ∧ v.toInt < 0

/-- What the writes of one `writev` call are to be, and the result it returns. -/
structure GatheredWrite (fd : U32) (buffers : List (List U8)) (ws : List HostWrite) (v0 : U32) :
    Prop where
  sameFd : ∀ w ∈ ws, w.fd = fd
  inOrder : takenBytes ws <+: buffers.flatten
  stops : StopsShort ws
  transferred : ¬FirstFails ws → v0.toNat = (takenBytes ws).length
  failed : FirstFails ws → IsErrorResult v0

/-- `writev` returns, having made one gathered write. -/
def WritevGathers (host : Host) (s : Machine) (fd ptr cnt : U32) : Prop :=
  ∃ t ws, mipsSyscallWritev host s fd ptr cnt = .ok t ∧
    logWrites host t.calls = logWrites host s.calls ++ ws ∧
    GatheredWrite fd (iovecBuffers s.memory ptr cnt.toNat 0) ws (t.reg MIPS_R_V0)

/-- The answers of the host to the writes of a `writev` call. -/
def writevReplies (host : Host) (s : Machine) (fd ptr cnt : U32) : List HostWrite :=
  writeReplies host fd (iovecBuffers s.memory ptr cnt.toNat 0) s.calls

/-- The answers whose total is the number of bytes taken, or an error. A failure counts as
`-1`, so there is none unless the first write fails, and then few. -/
def TotalTells (ws : List HostWrite) : Prop :=
  (FirstFails ws → failures ws ≤ 4095) ∧
    (¬FirstFails ws → failures ws = 0 ∧ (takenBytes ws).length < 2 ^ 32)

/-- When the first write fails, nothing is taken and something is counted. -/
theorem FirstFails.nothing {ws : List HostWrite} (h : FirstFails ws) (hstops : StopsShort ws) :
    takenBytes ws = [] ∧ 0 < failures ws := by
  obtain ⟨w, rest, rfl, hcount⟩ := h
  have hfull : ¬w.Full := by
    unfold HostWrite.Full
    rw [hcount]
    exact Option.some_ne_none _ ∘ Eq.symm
  constructor
  · rw [takenBytes, List.flatMap_cons, show rest.flatMap HostWrite.taken = [] from hstops.1 hfull]
    simp [HostWrite.taken, hcount]
  · rw [failures, List.countP_cons_of_pos (by rw [hcount]; rfl)]
    exact Nat.succ_pos _

/-- The total is the result that is asked for exactly when it tells. -/
theorem writeTotal_tells_iff {ws : List HostWrite} (hcounted : Counted ws)
    (hlength : ws.length < 2 ^ 32) (hstops : StopsShort ws) :
    ((¬FirstFails ws → (writeTotal ws).toNat = (takenBytes ws).length) ∧
      (FirstFails ws → IsErrorResult (writeTotal ws))) ↔ TotalTells ws := by
  unfold TotalTells
  by_cases hfirst : FirstFails ws
  · simp only [hfirst, not_true_eq_false, false_implies, true_implies, true_and, and_true]
    -- Nothing is taken, so the total is minus the number of failures.
    obtain ⟨hnothing, hpos⟩ := hfirst.nothing hstops
    have hsum := toNat_writeTotal hcounted
    rw [hnothing, List.length_nil] at hsum
    have hfail : failures ws ≤ ws.length := List.countP_le_length
    have htotal := (writeTotal ws).isLt
    have hint : (writeTotal ws).toInt = if 2 * (writeTotal ws).toNat < 2 ^ 32 then
        ((writeTotal ws).toNat : Int) else (writeTotal ws).toNat - 2 ^ 32 := by
      rw [BitVec.toInt_eq_toNat_cond]
      rfl
    unfold IsErrorResult
    rw [hint]
    split <;> omega
  · simp only [hfirst, not_false_eq_true, false_implies, true_implies, true_and, and_true]
    exact writeTotal_eq_length_iff hcounted hlength

/-- The register and the log after a `writev` whose array can be read. -/
theorem mipsSyscallWritev_eq (host : Host) (s : Machine) (fd ptr cnt : U32)
    (hentries : ∀ c < cnt.toNat, IovecMapped s.memory ptr (BitVec.ofNat 32 c) ∧
      IovecInPage ptr (BitVec.ofNat 32 c)) :
    ∃ t : Machine, mipsSyscallWritev host s fd ptr cnt = .ok (t.setReg MIPS_R_V0
        (writeTotal (writevReplies host s fd ptr cnt))) ∧
      t = { s with calls := t.calls } ∧
      logWrites host t.calls = logWrites host s.calls ++ writevReplies host s fd ptr cnt := by
  have hzero : ∀ c : Nat, (0 : U32) + BitVec.ofNat 32 c = BitVec.ofNat 32 c :=
    fun c => BitVec.zero_add _
  obtain ⟨t, hloop, hsame, hlog⟩ := @writevLoop_eq host fd ptr cnt.toNat 0 0 s
    (fun c hc => (hzero c).symm ▸ (hentries c hc).1)
    (fun c hc => (hzero c).symm ▸ (hentries c hc).2)
  have htotal : 0 + writeTotal (writevReplies host s fd ptr cnt) =
      writeTotal (writevReplies host s fd ptr cnt) := BitVec.zero_add _
  refine ⟨t, ?_, hsame, hlog⟩
  rw [← htotal, mipsSyscallWritev, hloop]
  rfl

/-- What the answers to a `writev` call are like, whatever the host. -/
theorem writevReplies_counted (host : Host) (s : Machine) (fd ptr cnt : U32) :
    Counted (writevReplies host s fd ptr cnt) ∧ (writevReplies host s fd ptr cnt).length < 2 ^ 32 := by
  have hlength := length_writeReplies_le host fd (iovecBuffers s.memory ptr cnt.toNat 0) s.calls
  rw [length_iovecBuffers] at hlength
  exact ⟨counted_writeReplies host fd _ s.calls, Nat.lt_of_le_of_lt hlength cnt.isLt⟩

/-- `writev` is one gathered write exactly when every word of the array lies in one page, the
host takes nothing after a short or failed write, and the total tells. -/
theorem writev_gathered_iff (host : Host) (s : Machine) (fd ptr cnt : U32)
    (hmapped : ∀ c < cnt.toNat, IovecMapped s.memory ptr (BitVec.ofNat 32 c)) :
    WritevGathers host s fd ptr cnt ↔
      (∀ c < cnt.toNat, IovecInPage ptr (BitVec.ofNat 32 c)) ∧
      StopsShort (writevReplies host s fd ptr cnt) ∧
      TotalTells (writevReplies host s fd ptr cnt) := by
  by_cases hpage : ∀ c < cnt.toNat, IovecInPage ptr (BitVec.ofNat 32 c)
  swap
  · -- A call that returns has read every entry.
    refine iff_of_false ?_ fun h => hpage h.1
    rintro ⟨t, ws, ht, -⟩
    obtain ⟨r, hloop, -⟩ := bind_eq_ok.mp ht
    exact hpage fun c hc =>
      BitVec.zero_add (BitVec.ofNat 32 c) ▸ (writevLoop_ok host fd ptr hloop c hc).2
  obtain ⟨t, hrun, -, hlog⟩ := mipsSyscallWritev_eq host s fd ptr cnt
    fun c hc => ⟨hmapped c hc, hpage c hc⟩
  obtain ⟨hcounted, hlength⟩ := writevReplies_counted host s fd ptr cnt
  constructor
  · rintro ⟨t', ws, ht', hlog', hgathered⟩
    cases hrun.symm.trans ht'
    -- The log tells which writes were made.
    cases List.append_cancel_left (hlog.symm.trans hlog')
    have hstops := hgathered.stops
    exact ⟨hpage, hstops, (writeTotal_tells_iff hcounted hlength hstops).1
      ⟨hgathered.transferred, hgathered.failed⟩⟩
  · rintro ⟨-, hstops, htotal⟩
    -- What the host took is a prefix because it took nothing after a short write.
    obtain ⟨htransferred, hfailed⟩ := (writeTotal_tells_iff hcounted hlength hstops).2 htotal
    refine ⟨_, writevReplies host s fd ptr cnt, hrun, hlog, ?_, ?_, hstops, htransferred, hfailed⟩
    · intro w hw
      obtain ⟨before, data, rfl⟩ := mem_writeReplies hw
      rfl
    · rw [← flatten_writeReplies host fd (iovecBuffers s.memory ptr cnt.toNat 0) s.calls]
      exact hstops.prefix_flatten

/-- Two entries, for the buffers `ab` and `cd`. -/
def writevMachine : Machine :=
  program 0x10000 [0x10010, 2, 0x10014, 2, 0x00006261, 0x00006463]

theorem mapped_writevMachine :
    ∀ c < (2 : U32).toNat, IovecMapped writevMachine.memory 0x10000 (BitVec.ofNat 32 c) := by
  have hentry : ∀ c : Fin 2, ∀ i : Fin 8, (flat writevMachine.memory
      (iovecAt 0x10000 (BitVec.ofNat 32 c.val) + BitVec.ofNat 32 i.val)).isSome := by
    decide +kernel
  have hbuffer : ∀ c : Fin 2,
      (flatWord writevMachine.memory (iovecAt 0x10000 (BitVec.ofNat 32 c.val) + 4)).toNat = 2 ∧
      ∀ i : Fin 2, (flat writevMachine.memory (flatWord writevMachine.memory
        (iovecAt 0x10000 (BitVec.ofNat 32 c.val)) + BitVec.ofNat 32 i.val)).isSome := by
    decide +kernel
  intro c hc
  obtain ⟨hlength, hbytes⟩ := hbuffer ⟨c, hc⟩
  refine ⟨fun i hi => hentry ⟨c, hc⟩ ⟨i, hi⟩, fun i hi => ?_⟩
  rw [hlength] at hi
  exact hbytes ⟨i, hi⟩

/-- A host that takes at most `n` bytes of a write. -/
def takingHost (n : Nat) : Host := fun calls call =>
  match call with
  | .write _ data => (some ⟨min n data.length, by omega⟩ : Option (Fin (data.length + 1)))
  | call => failingHost calls call

theorem writev_gathered_iff_full : WritevGathers (takingHost 2) writevMachine 1 0x10000 2 := by
  have hws : writevReplies (takingHost 2) writevMachine 1 0x10000 2 =
      [⟨1, [0x61, 0x62], some 2⟩, ⟨1, [0x63, 0x64], some 2⟩] := by decide +kernel
  refine (writev_gathered_iff (takingHost 2) writevMachine 1 0x10000 2 mapped_writevMachine).2
    ⟨?_, ?_, ?_⟩
  · have h : ∀ c : Fin 2, InPage (iovecAt 0x10000 (BitVec.ofNat 32 c.val)) 4 ∧
        InPage (iovecAt 0x10000 (BitVec.ofNat 32 c.val) + 4) 4 := by decide
    exact fun c hc => h ⟨c, hc⟩
  · rw [hws]
    exact ⟨fun h => absurd rfl h, fun h => absurd rfl h, trivial⟩
  · rw [hws]
    refine ⟨?_, fun _ => ⟨rfl, by decide⟩⟩
    rintro ⟨w, rest, hcons, hcount⟩
    cases hcons
    cases hcount

/-- A host that takes one byte of each write gets `a` and `c`. -/
theorem writev_goes_on :
    ¬ ∀ (host : Host) (s : Machine) (fd ptr cnt : U32),
      (∀ c < cnt.toNat, IovecMapped s.memory ptr (BitVec.ofNat 32 c)) →
      WritevGathers host s fd ptr cnt := by
  intro h
  obtain ⟨t, ws, ht, hlog, hgathered⟩ := h (takingHost 1) writevMachine 1 0x10000 2
    mapped_writevMachine
  have hrun : okWith (fun t => decide (logWrites (takingHost 1) t.calls =
      [⟨1, [0x61, 0x62], some 1⟩, ⟨1, [0x63, 0x64], some 1⟩]))
      (mipsSyscallWritev (takingHost 1) writevMachine 1 0x10000 2) = true := by decide +kernel
  rw [ht] at hrun
  have hws : [⟨1, [0x61, 0x62], some 1⟩, ⟨1, [0x63, 0x64], some 1⟩] = ws :=
    (of_decide_eq_true hrun).symm.trans hlog
  have hstops := hgathered.stops
  rw [← hws] at hstops
  -- The first write is short, so nothing of the second may be taken.
  exact absurd (hstops.1 (by unfold HostWrite.Full; decide)) (by decide)

end MipsEngines
