import MipsEngines.Lib.StepMachine
import MipsEngines.Lib.Store
import MipsEngines.Model.Word

/-!
# `MipsEngines.Model.Architecture`: the architecture the engines interpret

The user instructions of a little-endian MIPS I with interlocked loads, as the processor
manual states them: what the engines are for, and not what their code does. Values are
integers and natural numbers, cut to a word at the end; memory is a store of bytes; register
zero is zero by construction; the program counter is a pair, the instruction and the one
after it, which is what a delay slot is.

A step stops where the manual leaves user mode (`Stop.overflow`, `Stop.systemCall` and the
others), and where it says that the result is unpredictable.

Nothing here is translated from the source, and nothing names it. `Proofs.Architecture`
connects the two.
-/

set_option autoImplicit false

namespace MipsEngines.Arch

open Lib

/-! ### Instructions -/

/-- The numerals of `Fin 32` are the numbers of registers. -/
scoped instance registers : NeZero 32 := ⟨by decide⟩

inductive AluOp
  | add | addu | sub | subu | slt | sltu | and | or | xor | nor
  deriving DecidableEq, Repr

inductive ImmOp
  | addi | addiu | slti | sltiu | andi | ori | xori
  deriving DecidableEq, Repr

inductive ShiftOp
  | sll | srl | sra
  deriving DecidableEq, Repr

inductive MulDivOp
  | mult | multu | div | divu
  deriving DecidableEq, Repr

inductive LoadOp
  | lb | lbu | lh | lhu | lw | lwl | lwr
  deriving DecidableEq, Repr

inductive StoreOp
  | sb | sh | sw | swl | swr
  deriving DecidableEq, Repr

/-- The condition of a branch. `eq` and `ne` compare two registers, the others one with zero. -/
inductive Cond
  | eq | ne | lez | gtz | ltz | gez
  deriving DecidableEq, Repr

inductive Instruction
  | alu (op : AluOp) (rd rs rt : Fin 32)
  | imm (op : ImmOp) (rt rs : Fin 32) (immediate : U16)
  | lui (rt : Fin 32) (immediate : U16)
  | shift (op : ShiftOp) (rd rt : Fin 32) (amount : Fin 32)
  | shiftVar (op : ShiftOp) (rd rt rs : Fin 32)
  | mulDiv (op : MulDivOp) (rs rt : Fin 32)
  | mfhi (rd : Fin 32)
  | mflo (rd : Fin 32)
  | mthi (rs : Fin 32)
  | mtlo (rs : Fin 32)
  | load (op : LoadOp) (rt base : Fin 32) (offset : U16)
  | store (op : StoreOp) (rt base : Fin 32) (offset : U16)
  | branch (cond : Cond) (link : Bool) (rs rt : Fin 32) (offset : U16)
  | jump (link : Bool) (index : BitVec 26)
  | jr (rs : Fin 32)
  | jalr (rd rs : Fin 32)
  | sync
  | syscall
  | break
  deriving DecidableEq, Repr

/-! ### Decoding -/

/-- The `width` bits of a word from bit `lo` on. -/
def bitsAt (w : U32) (lo width : Nat) : Nat := w.toNat / 2 ^ lo % 2 ^ width

/-- The register a five-bit field names. -/
def regAt (w : U32) (lo : Nat) : Fin 32 := ⟨bitsAt w lo 5, Nat.mod_lt _ (Nat.two_pow_pos 5)⟩

def immediateOf (w : U32) : U16 := BitVec.ofNat 16 (bitsAt w 0 16)

/-- The instructions with opcode 0, by their last six bits. -/
def decodeSpecial (w : U32) (rs rt rd amount : Fin 32) : Option Instruction :=
  match bitsAt w 0 6 with
  | 0x00 => some (.shift .sll rd rt amount)
  | 0x02 => some (.shift .srl rd rt amount)
  | 0x03 => some (.shift .sra rd rt amount)
  | 0x04 => some (.shiftVar .sll rd rt rs)
  | 0x06 => some (.shiftVar .srl rd rt rs)
  | 0x07 => some (.shiftVar .sra rd rt rs)
  | 0x08 => some (.jr rs)
  | 0x09 => some (.jalr rd rs)
  | 0x0c => some .syscall
  | 0x0d => some .break
  | 0x0f => some .sync
  | 0x10 => some (.mfhi rd)
  | 0x11 => some (.mthi rs)
  | 0x12 => some (.mflo rd)
  | 0x13 => some (.mtlo rs)
  | 0x18 => some (.mulDiv .mult rs rt)
  | 0x19 => some (.mulDiv .multu rs rt)
  | 0x1a => some (.mulDiv .div rs rt)
  | 0x1b => some (.mulDiv .divu rs rt)
  | 0x20 => some (.alu .add rd rs rt)
  | 0x21 => some (.alu .addu rd rs rt)
  | 0x22 => some (.alu .sub rd rs rt)
  | 0x23 => some (.alu .subu rd rs rt)
  | 0x24 => some (.alu .and rd rs rt)
  | 0x25 => some (.alu .or rd rs rt)
  | 0x26 => some (.alu .xor rd rs rt)
  | 0x27 => some (.alu .nor rd rs rt)
  | 0x2a => some (.alu .slt rd rs rt)
  | 0x2b => some (.alu .sltu rd rs rt)
  | _ => none

/-- The instructions with opcode 1, by their `rt` field. -/
def decodeRegimm (w : U32) (rs rt : Fin 32) : Option Instruction :=
  match bitsAt w 16 5 with
  | 0x00 => some (.branch .ltz false rs rt (immediateOf w))
  | 0x01 => some (.branch .gez false rs rt (immediateOf w))
  | 0x10 => some (.branch .ltz true rs rt (immediateOf w))
  | 0x11 => some (.branch .gez true rs rt (immediateOf w))
  | _ => none

def decode (w : U32) : Option Instruction :=
  let rs := regAt w 21
  let rt := regAt w 16
  let imm := immediateOf w
  match bitsAt w 26 6 with
  | 0x00 => decodeSpecial w rs rt (regAt w 11) (regAt w 6)
  | 0x01 => decodeRegimm w rs rt
  | 0x02 => some (.jump false (BitVec.ofNat 26 (bitsAt w 0 26)))
  | 0x03 => some (.jump true (BitVec.ofNat 26 (bitsAt w 0 26)))
  | 0x04 => some (.branch .eq false rs rt imm)
  | 0x05 => some (.branch .ne false rs rt imm)
  | 0x06 => some (.branch .lez false rs rt imm)
  | 0x07 => some (.branch .gtz false rs rt imm)
  | 0x08 => some (.imm .addi rt rs imm)
  | 0x09 => some (.imm .addiu rt rs imm)
  | 0x0a => some (.imm .slti rt rs imm)
  | 0x0b => some (.imm .sltiu rt rs imm)
  | 0x0c => some (.imm .andi rt rs imm)
  | 0x0d => some (.imm .ori rt rs imm)
  | 0x0e => some (.imm .xori rt rs imm)
  | 0x0f => some (.lui rt imm)
  | 0x20 => some (.load .lb rt rs imm)
  | 0x21 => some (.load .lh rt rs imm)
  | 0x22 => some (.load .lwl rt rs imm)
  | 0x23 => some (.load .lw rt rs imm)
  | 0x24 => some (.load .lbu rt rs imm)
  | 0x25 => some (.load .lhu rt rs imm)
  | 0x26 => some (.load .lwr rt rs imm)
  | 0x28 => some (.store .sb rt rs imm)
  | 0x29 => some (.store .sh rt rs imm)
  | 0x2a => some (.store .swl rt rs imm)
  | 0x2b => some (.store .sw rt rs imm)
  | 0x2e => some (.store .swr rt rs imm)
  | _ => none

/-! ### The state -/

/-- The general registers. -/
structure Gprs where
  value : Fin 32 → U32
  zero : value 0 = 0

/-- A register is written; a value for register zero is lost. -/
def Gprs.write (g : Gprs) (r : Fin 32) (v : U32) : Gprs where
  value := fun i => if i = r ∧ r ≠ 0 then v else g.value i
  zero := by
    rw [if_neg fun h => h.2 h.1.symm]
    exact g.zero

structure State where
  gprs : Gprs
  hi : U32
  lo : U32
  pc : U32
  /-- The instruction after the one at `pc`. -/
  npc : U32
  bytes : Store U32 U8

/-- Why a step has no result in user mode. -/
inductive Stop
  | reserved
  | overflow
  | addressError
  | unmapped
  | systemCall
  | breakpoint
  | unpredictable
  deriving DecidableEq, Repr

/-! ### Operations on values -/

/-- A signed result that has to fit. -/
def fits (z : Int) : Except Stop U32 :=
  if -2 ^ 31 ≤ z ∧ z < 2 ^ 31 then .ok (BitVec.ofInt 32 z) else .error .overflow

def ofBool (b : Bool) : U32 := if b then 1 else 0

def AluOp.value (a b : U32) : AluOp → Except Stop U32
  | add => fits (a.toInt + b.toInt)
  | addu => .ok (BitVec.ofNat 32 (a.toNat + b.toNat))
  | sub => fits (a.toInt - b.toInt)
  | subu => .ok (BitVec.ofInt 32 ((a.toNat : Int) - b.toNat))
  | slt => .ok (ofBool (decide (a.toInt < b.toInt)))
  | sltu => .ok (ofBool (decide (a.toNat < b.toNat)))
  | and => .ok (a &&& b)
  | or => .ok (a ||| b)
  | xor => .ok (a ^^^ b)
  | nor => .ok (~~~(a ||| b))

/-- The arithmetic ones extend the sign of the immediate, the logical ones put zeros. -/
def ImmOp.value (a : U32) (imm : U16) : ImmOp → Except Stop U32
  | addi => fits (a.toInt + imm.toInt)
  | addiu => .ok (BitVec.ofInt 32 (a.toInt + imm.toInt))
  | slti => .ok (ofBool (decide (a.toInt < imm.toInt)))
  | sltiu => .ok (ofBool (decide (a.toNat < (BitVec.ofInt 32 imm.toInt).toNat)))
  | andi => .ok (a &&& BitVec.ofNat 32 imm.toNat)
  | ori => .ok (a ||| BitVec.ofNat 32 imm.toNat)
  | xori => .ok (a ^^^ BitVec.ofNat 32 imm.toNat)

def ShiftOp.value (v : U32) (k : Nat) : ShiftOp → U32
  | sll => BitVec.ofNat 32 (v.toNat * 2 ^ k)
  | srl => BitVec.ofNat 32 (v.toNat / 2 ^ k)
  | sra => BitVec.ofInt 32 (v.toInt / 2 ^ k)

/-- `HI` and `LO`. -/
def MulDivOp.value (a b : U32) : MulDivOp → Except Stop (U32 × U32)
  | mult => .ok (BitVec.ofInt 32 (a.toInt * b.toInt / 2 ^ 32), BitVec.ofInt 32 (a.toInt * b.toInt))
  | multu => .ok (BitVec.ofNat 32 (a.toNat * b.toNat / 2 ^ 32), BitVec.ofNat 32 (a.toNat * b.toNat))
  | div =>
      if b = 0 then .error .unpredictable
      else .ok (BitVec.ofInt 32 (a.toInt.tmod b.toInt), BitVec.ofInt 32 (a.toInt.tdiv b.toInt))
  | divu =>
      if b = 0 then .error .unpredictable
      else .ok (BitVec.ofNat 32 (a.toNat % b.toNat), BitVec.ofNat 32 (a.toNat / b.toNat))

def Cond.holds (a b : U32) : Cond → Bool
  | eq => decide (a = b)
  | ne => decide (a ≠ b)
  | lez => decide (a.toInt ≤ 0)
  | gtz => decide (0 < a.toInt)
  | ltz => decide (a.toInt < 0)
  | gez => decide (0 ≤ a.toInt)

/-! ### Memory -/

namespace State

def reg (s : State) (r : Fin 32) : U32 := s.gprs.value r

def byte (s : State) (a : U32) : Except Stop U8 :=
  match s.bytes a with
  | none => .error .unmapped
  | some b => .ok b

def half (s : State) (a : U32) : Except Stop U16 :=
  if a.toNat % 2 ≠ 0 then .error .addressError
  else do
    let b₀ ← s.byte a
    let b₁ ← s.byte (a + 1)
    return b₁ ++ b₀

def word (s : State) (a : U32) : Except Stop U32 :=
  if a.toNat % 4 ≠ 0 then .error .addressError
  else do
    let b₀ ← s.byte a
    let b₁ ← s.byte (a + 1)
    let b₂ ← s.byte (a + 2)
    let b₃ ← s.byte (a + 3)
    return b₃ ++ b₂ ++ b₁ ++ b₀

/-- Byte `j` of a register. -/
def byteOfWord (v : U32) (j : Nat) : U8 := v.extractLsb' (8 * j) 8

/-- A word of which byte `j` is read at `a + j` where `p j` holds, and kept elsewhere. -/
def merge (s : State) (a old : U32) (p : Nat → Bool) : Except Stop U32 := do
  let get := fun j => if p j then s.byte (a + BitVec.ofNat 32 j) else .ok (byteOfWord old j)
  let b₀ ← get 0
  let b₁ ← get 1
  let b₂ ← get 2
  let b₃ ← get 3
  return b₃ ++ b₂ ++ b₁ ++ b₀

/-- The unaligned loads move the part of a word on their side of `a` that is in the aligned
word of `a`. -/
def load (s : State) (a old : U32) : LoadOp → Except Stop U32
  | .lb => do
      let b ← s.byte a
      return BitVec.ofInt 32 b.toInt
  | .lbu => do
      let b ← s.byte a
      return BitVec.ofNat 32 b.toNat
  | .lh => do
      let h ← s.half a
      return BitVec.ofInt 32 h.toInt
  | .lhu => do
      let h ← s.half a
      return BitVec.ofNat 32 h.toNat
  | .lw => s.word a
  | .lwl => s.merge (a - 3) old fun j => decide (3 ≤ a.toNat % 4 + j)
  | .lwr => s.merge a old fun j => decide (a.toNat % 4 + j < 4)

/-- `n` bytes from `a` on. -/
def bytesFrom (a : U32) (n : Nat) (f : Nat → U8) : U32 → Option U8 :=
  fun b => if (b - a).toNat < n then some (f (b - a).toNat) else none

/-- The bytes of a store, if the cells are there. -/
def storing (s : State) (a : U32) (n : Nat) (f : Nat → U8) : Except Stop (U32 → Option U8) :=
  if (List.range n).all fun i => (s.bytes (a + BitVec.ofNat 32 i)).isSome then .ok (bytesFrom a n f)
  else .error .unmapped

def store (s : State) (a v : U32) : StoreOp → Except Stop (U32 → Option U8)
  | .sb => s.storing a 1 (byteOfWord v)
  | .sh => if a.toNat % 2 ≠ 0 then .error .addressError else s.storing a 2 (byteOfWord v)
  | .sw => if a.toNat % 4 ≠ 0 then .error .addressError else s.storing a 4 (byteOfWord v)
  | .swl =>
      let k := a.toNat % 4
      s.storing (a - BitVec.ofNat 32 k) (k + 1) fun i => byteOfWord v (3 - k + i)
  | .swr => s.storing a (4 - a.toNat % 4) (byteOfWord v)

/-! ### Execution -/

/-- `base` plus a signed offset. -/
def address (s : State) (base : Fin 32) (offset : U16) : U32 :=
  BitVec.ofInt 32 ((s.reg base).toInt + offset.toInt)

/-- Only the instruction after a taken transfer is at an `npc` of its own, and a transfer there
is unpredictable. -/
def afterTransfer (s : State) : Bool := decide (s.npc ≠ s.pc + 4)

end State

/-- What an instruction changes, the program counter apart. -/
inductive Effect
  | nothing
  | register (r : Fin 32) (v : U32)
  | hi (v : U32)
  | lo (v : U32)
  | hiLo (hi lo : U32)
  | bytes (data : U32 → Option U8)
  /-- A transfer, with the register that takes the return address, and the target if it is
  taken. -/
  | transfer (link : Option (Fin 32)) (target : Option U32)

/-- A transfer of control, where one may stand. -/
def State.transfer (s : State) (link : Option (Fin 32)) (target : Option U32) :
    Except Stop Effect :=
  if s.afterTransfer then .error .unpredictable else .ok (.transfer link target)

def State.execute (s : State) : Instruction → Except Stop Effect
  | .alu op rd rs rt => do
      let v ← op.value (s.reg rs) (s.reg rt)
      return .register rd v
  | .imm op rt rs imm => do
      let v ← op.value (s.reg rs) imm
      return .register rt v
  | .lui rt imm => .ok (.register rt (BitVec.ofNat 32 (imm.toNat * 2 ^ 16)))
  | .shift op rd rt amount => .ok (.register rd (op.value (s.reg rt) amount.val))
  | .shiftVar op rd rt rs => .ok (.register rd (op.value (s.reg rt) ((s.reg rs).toNat % 32)))
  | .mulDiv op rs rt => do
      let (hi, lo) ← op.value (s.reg rs) (s.reg rt)
      return .hiLo hi lo
  | .mfhi rd => .ok (.register rd s.hi)
  | .mflo rd => .ok (.register rd s.lo)
  | .mthi rs => .ok (.hi (s.reg rs))
  | .mtlo rs => .ok (.lo (s.reg rs))
  | .load op rt base offset => do
      let v ← s.load (s.address base offset) (s.reg rt) op
      return .register rt v
  | .store op rt base offset => do
      let data ← s.store (s.address base offset) (s.reg rt) op
      return .bytes data
  | .branch cond link rs rt offset =>
      s.transfer (if link then some 31 else none)
        (if cond.holds (s.reg rs) (s.reg rt) then
          some (BitVec.ofInt 32 (s.pc.toNat + 4 + 4 * offset.toInt))
        else none)
  | .jump link index =>
      -- The target is in the region of the delay slot.
      s.transfer (if link then some 31 else none)
        (some (BitVec.ofNat 32 ((s.pc + 4).toNat / 2 ^ 28 * 2 ^ 28 + 4 * index.toNat)))
  | .jr rs => s.transfer none (some (s.reg rs))
  | .jalr rd rs => s.transfer (some rd) (some (s.reg rs))
  | .sync => .ok .nothing
  | .syscall => .error .systemCall
  | .break => .error .breakpoint

/-- On to the next instruction. -/
def State.advance (s : State) : State := { s with pc := s.npc, npc := s.npc + 4 }

def State.apply (s : State) : Effect → State
  | .nothing => s.advance
  | .register r v => { s.advance with gprs := s.gprs.write r v }
  | .hi v => { s.advance with hi := v }
  | .lo v => { s.advance with lo := v }
  | .hiLo hi lo => { s.advance with hi := hi, lo := lo }
  | .bytes data => { s.advance with bytes := s.bytes.write data }
  | .transfer link target => { s.advance with
      gprs := match link with
        | none => s.gprs
        | some r => s.gprs.write r (s.pc + 8)
      npc := target.getD (s.npc + 4) }

/-- The instruction at `pc`, with what it does. -/
def State.current (s : State) : Except Stop (Instruction × Effect) := do
  let w ← s.word s.pc
  match decode w with
  | none => .error .reserved
  | some i => do
      let e ← s.execute i
      return (i, e)

/-- The processor, in user mode. -/
def processor : StepMachine Stop State where
  done _ := false
  step s := do
    let (_, e) ← s.current
    return s.apply e

end MipsEngines.Arch
