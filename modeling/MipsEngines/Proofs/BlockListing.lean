import MipsEngines.Proofs.BlockShape
import MipsEngines.Proofs.Listings

/-!
# `MipsEngines.Proofs.BlockListing`: the block engine steps its program counter

The block engine does not step `PC`. Before a block runs it sets `PC` ahead to the control
transfer that ends the block, the one op that reads it. With `__DISASSEMBLE__` it does step
`PC`, op by op, since every line needs it.

`disassemble_blocked` says that nothing else differs as long as no block has a second control
transfer: the two builds are at the same place after every step, with the same machine up to
`PC` inside a block, and every line has the address that its word was decoded at.
-/

set_option autoImplicit false

namespace MipsEngines

open Lib StepMachine

/-! ### Where the stepped program counter is -/

/-- The address of the next op, inside a block. -/
def BlockedState.opAddress (e : BlockedState) : Option U32 :=
  match e.control with
  | .unrolled current k _ | .test current k =>
      e.blocks[current]?.map fun b => b.address + BitVec.ofNat 32 (4 * k)
  | .leave current => e.blocks[current]?.map fun b => b.address + 4 * (b.size - 1)
  | _ => none

/-- The state with `PC` at the next op. -/
def BlockedState.stepping (e : BlockedState) : BlockedState :=
  match e.opAddress with
  | none => e
  | some pc => { e with machine := e.machine.setReg MIPS_R_PC pc }

/-- What is printed at the step from `e`: a line with the address of the op, and what the
implementation prints. -/
def BlockedState.listed (e : BlockedState) : List String :=
  match Engine.blocked.executing e, e.opAddress with
  | some w, some pc =>
      line w.2 w.1 pc (e.machine.reg MIPS_R_NNPC) :: printedBy w.2 e.machine
  | _, _ => []

/-- Only the last op but one is a control transfer. The terminator is one more op. -/
def Block.Straight (b : Block) : Prop :=
  ∀ k i, handlerAt b k = some i → k + 3 < b.ops.length → i.isControl = false

/-! ### The program counter of a machine -/

theorem setReg_pc_eq (s : Machine) (pc : U32) :
    s.setReg MIPS_R_PC pc = s.withPipe { s.pipe with pc := pc } := by
  have hset := setReg_pc_withPipe s s.pipe pc
  rwa [Machine.withPipe_pipe] at hset

@[simp] theorem setReg_pc_setReg_pc (s : Machine) (pc pc' : U32) :
    (s.setReg MIPS_R_PC pc).setReg MIPS_R_PC pc' = s.setReg MIPS_R_PC pc' := by
  rw [setReg_pc_eq, setReg_pc_eq, setReg_pc_eq, Machine.withPipe_withPipe, Machine.pipe_withPipe]

@[simp] theorem setReg_pc_self (s : Machine) : s.setReg MIPS_R_PC (s.reg MIPS_R_PC) = s := by
  rw [setReg_pc_eq]
  exact Machine.withPipe_pipe s

/-- No implementation prints a register of the pipe. -/
theorem printedBy_withPipe (i : Instr) (s : Machine) (p : Pipe) :
    printedBy i (s.withPipe p) = printedBy i s := by
  have hreg : ∀ r : Reg, r.val < 34 → (s.withPipe p).reg r = s.reg r :=
    fun r hr => Machine.reg_withPipe hr s p
  simp only [printedBy, hreg MIPS_R_V0 (by decide), hreg MIPS_R_A0 (by decide),
    hreg MIPS_R_A1 (by decide), hreg MIPS_R_A2 (by decide)]

theorem printedBy_setReg_pc (i : Instr) (s : Machine) (pc : U32) :
    printedBy i (s.setReg MIPS_R_PC pc) = printedBy i s := by
  rw [setReg_pc_eq, printedBy_withPipe]

/-- An instruction that is no control transfer runs the same wherever `PC` is. -/
theorem execute_setReg_pc (host : Host) {i : Instr} (hi : i.isControl = false) (cir : U32)
    (s : Machine) (pc : U32) :
    execute host i cir (s.setReg MIPS_R_PC pc)
      = (execute host i cir s).map fun t => t.setReg MIPS_R_PC pc := by
  rw [setReg_pc_eq, execute_withPipe host hi]
  cases ht : execute host i cir s with
  | error e => rfl
  | ok t =>
      have hpipe := execute_pipe hi ht
      rw [map_ok, map_ok, setReg_pc_eq, hpipe]

/-! ### One step -/

section Step

variable {host : Host} {blocks : List Block} {previous : Option Nat} {s : Machine}

/-- In a straight block the control transfer is where the plain build has set `PC`, and the other
ops do not look at it. So an op does the same with `PC` at its own address. -/
theorem execute_stepping (host : Host) {b : Block} {code : Code} {k : Nat}
    (hin : InBlock b code k s) (hstraight : b.Straight) {w : U32 × Instr} (hw : code[k]? = some w) :
    execute host w.2 w.1 (s.setReg MIPS_R_PC (b.address + BitVec.ofNat 32 (4 * k)))
      = (execute host w.2 w.1 s).map fun t =>
          t.setReg MIPS_R_PC (b.address + BitVec.ofNat 32 (4 * k)) := by
  have hop := hin.decoded.op_lt hw
  have hlength : b.ops.length = code.length + 1 := by
    rw [hin.decoded.ops]
    simp
  cases hc : w.2.isControl with
  | false => exact execute_setReg_pc host hc w.1 s _
  | true =>
      -- It is the last transfer of the block, and `PC` is at it in both builds.
      obtain ⟨body, c, d, rfl, -, hd⟩ := hin.decoded.chain.ends
      have hlen : (body ++ [c, d]).length = body.length + 2 := by simp
      have hk : k < (body ++ [c, d]).length := (List.getElem?_eq_some_iff.mp hw).1
      have hlast : k = body.length := by
        by_contra hne
        rcases Nat.lt_or_ge k body.length with hlt | hge
        · have hno := hstraight k w.2 (by rw [handlerAt, hop]; rfl) (by omega)
          rw [hno] at hc
          cases hc
        · have hkd : k = body.length + 1 := by omega
          subst hkd
          have hwd : d = w := by simpa using hw
          rw [← hwd, hd] at hc
          cases hc
      have haddress : b.address + BitVec.ofNat 32 (4 * k) = s.reg MIPS_R_PC := by
        rw [hin.pc, branchAddress, hin.decoded.size, hlen, four_mul_size_sub, hlast]
      rw [haddress, setReg_pc_self]
      cases ht : execute host w.2 w.1 s with
      | error e => rfl
      | ok t => rw [map_ok, ← execute_pc ht, setReg_pc_self]

theorem emitted_blocked {w : U32 × Instr} {s t : Machine} {pc : U32}
    (h : execute host w.2 w.1 (s.setReg MIPS_R_PC pc) = .ok t) :
    Engine.blocked.disassembly.emitted host false w (s.setReg MIPS_R_PC pc)
      = line w.2 w.1 pc (s.reg MIPS_R_NNPC) :: printedBy w.2 s := by
  simp [Instrumentation.emitted, h, Engine.disassembly, lineAt, printedBy_setReg_pc,
    show MIPS_R_NNPC ≠ MIPS_R_PC by decide]

/-- The program counters are the same in the outer loop. -/
theorem stepping_outer (printed : List String) :
    blockedStepDisassemble host (⟨.outer, blocks, previous, s⟩, printed)
      = (blockedStep host ⟨.outer, blocks, previous, s⟩).map fun f => (f.stepping, printed) := by
  show (blockedStep host ⟨.outer, blocks, previous, s⟩).map _ = _
  cases hstep : blockedStep host ⟨.outer, blocks, previous, s⟩ with
  | error e => rfl
  | ok f =>
      -- Control goes to the head of the inner loop, or out.
      have hf : f.stepping = f := by
        cases hhalt : s.mips.halted with
        | true =>
            rw [blockedStep_outer_halted host previous s hhalt] at hstep
            cases hstep
            rfl
        | false =>
            rcases blockedStep_outer host previous s hhalt hstep with ⟨_, -, rfl⟩ | ⟨_, -, -, rfl⟩
            · rfl
            · rfl
      rw [map_ok, map_ok, hf]

/-- A block is entered with `PC` at its first op. -/
theorem stepping_inner {current : Nat} (h : BlockedInv ⟨.inner current, blocks, previous, s⟩)
    (printed : List String) :
    blockedStepDisassemble host (⟨.inner current, blocks, previous, s⟩, printed)
      = (blockedStep host ⟨.inner current, blocks, previous, s⟩).map fun f =>
          (f.stepping, printed) := by
  obtain ⟨b, hb, haddr⟩ := h.control
  rw [blockedStep_inner host previous s hb, map_ok]
  have hentered : (⟨.unrolled current 0 (firstCase b), blocks, previous, preIncrement b s⟩ :
      BlockedState).stepping = ⟨.unrolled current 0 (firstCase b), blocks, previous, s⟩ := by
    simp [BlockedState.stepping, BlockedState.opAddress, hb, preIncrement, haddr]
  rw [hentered]
  simp [blockedStepDisassemble, derefBlock, hb]

/-- The line of an op is printed ahead of its handler, and `PC` goes to the next op. -/
theorem stepping_unrolled {current k case : Nat}
    (h : BlockedInv ⟨.unrolled current k case, blocks, previous, s⟩)
    (hstraight : ∀ b ∈ blocks, b.Straight) (printed : List String) :
    blockedStepDisassemble host
        ((⟨.unrolled current k case, blocks, previous, s⟩ : BlockedState).stepping, printed)
      = (blockedStep host ⟨.unrolled current k case, blocks, previous, s⟩).map fun f =>
          (f.stepping, printed
            ++ (⟨.unrolled current k case, blocks, previous, s⟩ : BlockedState).listed) := by
  obtain ⟨b, code, hb, hin, hk, -⟩ := h.control
  have hw : code[k]? = some code[k] := List.getElem?_eq_getElem hk
  have hop := hin.decoded.op_lt hw
  have hexecute := execute_stepping host hin (hstraight b (List.mem_of_getElem? hb)) hw
  rw [blockedStep_unrolled host previous s case hb hop]
  have hlisted : (⟨.unrolled current k case, blocks, previous, s⟩ : BlockedState).listed
      = line code[k].2 code[k].1 (b.address + BitVec.ofNat 32 (4 * k)) (s.reg MIPS_R_NNPC)
        :: printedBy code[k].2 s := by
    simp [BlockedState.listed, Engine.executing, BlockedState.opAddress, hb, hop, opOf]
  simp only [blockedStepDisassemble, BlockedState.stepping, BlockedState.opAddress, hb,
    Option.map_some, derefBlock, derefOp, hop, opOf, ok_bind, executeWith_eq, hlisted]
  cases ht : execute host code[k].2 code[k].1 s with
  | error e =>
      rw [ht] at hexecute
      rw [hexecute]
      rfl
  | ok t =>
      rw [ht, map_ok] at hexecute
      rw [emitted_blocked hexecute, hexecute]
      have hnext := congrArg (t.setReg MIPS_R_PC) (add_four_mul b.address k)
      by_cases hcase : case = 1
      · simpa [hcase, hb] using hnext
      · simpa [hcase, hb] using hnext

/-- At the terminator `PC` is behind the block. -/
theorem stepping_behind {current : Nat} {b : Block} {code : Code} (hb : blocks[current]? = some b)
    (hcode : b.Decoded code) : (⟨.leave current, blocks, previous, s⟩ : BlockedState).stepping
      = ⟨.leave current, blocks, previous,
          s.setReg MIPS_R_PC (b.address + BitVec.ofNat 32 (4 * code.length))⟩ := by
  have hsize : b.size - 1 = BitVec.ofNat 32 code.length := by
    rw [hcode.size, BitVec.ofNat_add]
    exact BitVec.add_sub_cancel _ _
  simp only [BlockedState.stepping, BlockedState.opAddress, hb, Option.map_some, hsize,
    BitVec.ofNat_mul]
  rfl

theorem stepping_test {current k : Nat} (h : BlockedInv ⟨.test current k, blocks, previous, s⟩)
    (printed : List String) :
    blockedStepDisassemble host
        ((⟨.test current k, blocks, previous, s⟩ : BlockedState).stepping, printed)
      = (blockedStep host ⟨.test current k, blocks, previous, s⟩).map fun f =>
          (f.stepping, printed) := by
  obtain ⟨b, code, hb, hin, hmod⟩ := h.control
  rcases Nat.lt_or_ge k code.length with hk | hk
  · have hop := hin.decoded.op_lt (List.getElem?_eq_getElem hk)
    rw [blockedStep_test host previous s hb hop]
    simp [blockedStepDisassemble, BlockedState.stepping, BlockedState.opAddress, hb, blockedStep,
      derefBlock, derefOp, hop, opOf]
  · have hkn : k = code.length := Nat.le_antisymm hin.le hk
    subst hkn
    have hop := hin.decoded.op_length
    rw [blockedStep_test host previous s hb hop, map_ok]
    show _ = Except.ok ((⟨.leave current, blocks, previous, s⟩ : BlockedState).stepping, _)
    rw [stepping_behind hb hin.decoded]
    simp [blockedStepDisassemble, BlockedState.stepping, BlockedState.opAddress, hb, blockedStep,
      derefBlock, derefOp, hop]

/-- The next block starts at `NNPC` in both builds. -/
theorem stepping_leave {current : Nat} (h : BlockedInv ⟨.leave current, blocks, previous, s⟩)
    (printed : List String) :
    blockedStepDisassemble host
        ((⟨.leave current, blocks, previous, s⟩ : BlockedState).stepping, printed)
      = (blockedStep host ⟨.leave current, blocks, previous, s⟩).map fun f =>
          (f.stepping, printed) := by
  obtain ⟨b, hb, -⟩ := h.control
  rw [blockedStep_leave host previous s hb, map_ok]
  have hleft : ∀ t : Machine, (⟨afterBlock b s.mips, blocks, some current, t⟩ :
      BlockedState).stepping = ⟨afterBlock b s.mips, blocks, some current, t⟩ := by
    intro t
    rcases afterBlock_cases b s.mips with hcontrol | ⟨q, hcontrol, -⟩
    · rw [hcontrol]
      rfl
    · rw [hcontrol]
      rfl
  have hafter : ∀ pc : U32, afterBlock b (s.setReg MIPS_R_PC pc).mips = afterBlock b s.mips :=
    fun _ => rfl
  show _ = Except.ok ((⟨afterBlock b s.mips, blocks, some current, _⟩ : BlockedState).stepping, _)
  rw [hleft]
  simp [blockedStepDisassemble, BlockedState.stepping, BlockedState.opAddress, hb, blockedStep,
    derefBlock, hafter, show MIPS_R_NNPC ≠ MIPS_R_PC by decide]

/-- The `__DISASSEMBLE__` build takes the step of the plain one, with `PC` at the next op, and
prints the line of the op. Only ops print. -/
theorem stepping_step {e : BlockedState} (hinv : BlockedInv e)
    (hstraight : ∀ b ∈ e.blocks, b.Straight) (printed : List String) :
    blockedStepDisassemble host (e.stepping, printed)
      = (blockedStep host e).map fun f => (f.stepping, printed ++ e.listed) := by
  have hsilent : e.listed = [] → (printed ++ e.listed) = printed := by
    intro hnone
    rw [hnone, List.append_nil]
  obtain ⟨control, blocks, previous, s⟩ := e
  cases control with
  | outer =>
      rw [hsilent rfl]
      exact stepping_outer printed
  | inner current =>
      rw [hsilent rfl]
      exact stepping_inner hinv printed
  | unrolled current k case => exact stepping_unrolled hinv hstraight printed
  | test current k =>
      rw [hsilent rfl]
      exact stepping_test hinv printed
  | leave current =>
      rw [hsilent rfl]
      exact stepping_leave hinv printed
  | returned =>
      rw [hsilent rfl]
      rfl

end Step

/-! ### Whole runs -/

theorem stepping_control (e : BlockedState) : e.stepping.control = e.control := by
  unfold BlockedState.stepping
  cases e.opAddress with
  | none => rfl
  | some pc => rfl

theorem SameBlock.straight {b c : Block} (h : SameBlock b c) (hc : c.Straight) : b.Straight := by
  have hops : c.ops = b.ops := by rw [h]
  intro k i hi hk
  refine hc k i ?_ (by rwa [hops])
  rw [handlerAt, hops]
  exact hi

/-- Blocks stay in the list and only their links change, so the blocks of the last state speak
for those of the states before it. -/
theorem straight_of_run {host : Host} {visited : List BlockedState} {e f : BlockedState}
    (h : (interpreterBlocked host).Run visited e f) (hf : ∀ b ∈ f.blocks, b.Straight) :
    (∀ b ∈ e.blocks, b.Straight) ∧ ∀ v ∈ visited, ∀ b ∈ v.blocks, b.Straight := by
  induction h with
  | refl => exact ⟨hf, by simp⟩
  | @head e f' f visited _ hstep _ ih =>
      obtain ⟨hnext, hrest⟩ := ih hf
      have hfirst : ∀ b ∈ e.blocks, b.Straight := by
        intro b hb
        obtain ⟨p, hp⟩ := List.mem_iff_getElem?.mp hb
        obtain ⟨c, hc, hsame⟩ := blockedStep_keeps hstep hp
        exact hsame.straight (hnext c (List.mem_of_getElem? hc))
      exact ⟨hfirst, List.forall_mem_cons.mpr ⟨hfirst, hrest⟩⟩

/-- A block of the switch engine has one control transfer. -/
theorem SwitchBlock.straight {m : Nat → Machine} {n t : Nat} {code : Code}
    (hb : SwitchBlock m n t code) {b : Block} (hcode : b.Decoded code) : b.Straight := by
  obtain ⟨body, w, d, rfl, hplain, -, -⟩ := hb.shape
  intro k i hi hk
  have hlen : b.ops.length = body.length + 3 := by
    rw [hcode.ops]
    simp
  have hword : (body ++ [w, d])[k]? = some body[k] := by
    rw [List.getElem?_append_left (by omega)]
    exact List.getElem?_eq_getElem (by omega)
  have hop := hcode.op_lt hword
  have heq : body[k].2 = i := by simpa [handlerAt, hop, opOf] using hi
  rw [← heq]
  exact hplain _ (List.getElem_mem _)

/-- So does every block in the cache between two blocks of a run. -/
theorem AtBoundary.straight {host : Host} {m : Nat → Machine} {n t : Nat} {e : BlockedState}
    (h : AtBoundary host m n t e) : ∀ b ∈ e.blocks, b.Straight := by
  intro b hb
  obtain ⟨q, hq⟩ := List.mem_iff_getElem?.mp hb
  obtain ⟨t', code, hswitch, -, -, hcode⟩ := h.cached q b hq
  exact hswitch.straight hcode

theorem stepping_done (host : Host) (e : BlockedState) (out : List String) :
    (interpreterBlockedDisassemble host).done (e.stepping, out)
      = (interpreterBlocked host).done e := by
  simp only [interpreterBlockedDisassemble, interpreterBlocked, stepping_control]

/-- A run of the plain build is followed step by step. -/
theorem stepping_run {host : Host} {s : Machine} {visited : List BlockedState} {e : BlockedState}
    (h : (interpreterBlocked host).Run visited (.start s) e)
    (hstraight : ∀ b ∈ e.blocks, b.Straight) :
    ∃ ws, (interpreterBlockedDisassemble host).Run ws (.start s, [])
        (e.stepping, visited.flatMap BlockedState.listed) ∧
      ws.map Prod.fst = visited.map BlockedState.stepping := by
  have hinv := h.invariant (I := BlockedInv) (fun _ _ hI _ hstep => blockedStep_inv hI hstep)
    (blockedInv_start s)
  have hblocks := (straight_of_run h hstraight).2
  refine h.through (N := interpreterBlockedDisassemble host) BlockedState.stepping _ ?_ []
  intro v hv v' out hdone hstep
  refine ⟨(stepping_done host v out).trans hdone, ?_⟩
  show blockedStepDisassemble host (v.stepping, out) = _
  have hplain : blockedStep host v = .ok v' := hstep
  rw [stepping_step (hinv.2 v hv) (hblocks v hv), hplain]
  rfl

/-- The `__DISASSEMBLE__` build of the block engine and the plain one. Take a run of the plain
build in which no block gets a second control transfer. The other build is at the same
place after every step, with the same machine but for `PC` inside a block, and prints a line for
every op it calls, at the address of the op. It returns where the plain one does, and fails
where the plain one fails. -/
theorem disassemble_blocked (host : Host) (s : Machine) (visited : List BlockedState)
    (e : BlockedState) (h : (interpreterBlocked host).Run visited (.start s) e)
    (hstraight : ∀ b ∈ e.blocks, b.Straight) :
    ∃ ws, (interpreterBlockedDisassemble host).Run ws (.start s, [])
        (e.stepping, visited.flatMap BlockedState.listed) ∧
      ws.map Prod.fst = visited.map BlockedState.stepping ∧
      (interpreterBlockedDisassemble host).done (e.stepping, visited.flatMap BlockedState.listed)
        = (interpreterBlocked host).done e ∧
      ∀ fault, (interpreterBlocked host).step e = .error fault →
        (interpreterBlockedDisassemble host).step
          (e.stepping, visited.flatMap BlockedState.listed) = .error fault := by
  obtain ⟨ws, hws, hmap⟩ := stepping_run h hstraight
  refine ⟨ws, hws, hmap, stepping_done host e _, ?_⟩
  intro fault hfault
  have hinv : BlockedInv e := (blockedInv_start s).of_reaches ⟨visited, h⟩
  have hplain : blockedStep host e = .error fault := hfault
  show blockedStepDisassemble host (e.stepping, _) = _
  rw [stepping_step hinv hstraight, hplain]
  rfl

/-- Four blocks of three instructions, the last one entered by a link. -/
theorem disassemble_blocked_pingPong :
    ∃ visited e ws, (interpreterBlocked failingHost).Run visited (.start pingPong) e ∧
      visited.countP BlockedState.atBlock = 4 ∧ visited.countP BlockedState.atOp = 12 ∧
      (interpreterBlockedDisassemble failingHost).Run ws (.start pingPong, [])
        (e.stepping, visited.flatMap BlockedState.listed) := by
  obtain ⟨visited, e, hrun, hcount, hops, -, hbound⟩ :=
    simulate_blocks pingPong_clean pingPong_blocks (Nat.le_refl 12)
  obtain ⟨ws, hws, -⟩ :=
    disassemble_blocked failingHost pingPong visited e hrun hbound.straight
  exact ⟨visited, e, ws, hrun, hcount, hops, hws⟩

/-! ### The listing of a run of the switch engine -/

/-- The line of op `k` of a block, called at `s`. -/
def opLines (b : Block) (k : Nat) (s : Machine) : List String :=
  match b.ops[k]? with
  | some ⟨cir, some i⟩ =>
      line i cir (b.address + BitVec.ofNat 32 (4 * k)) (s.reg MIPS_R_NNPC) :: printedBy i s
  | _ => []

theorem listed_eq_opLines {b c : Block} (hsame : SameBlock b c) {blocks : List Block}
    {previous : Option Nat} {s : Machine} {q k case : Nat} (hc : blocks[q]? = some c) :
    (⟨.unrolled q k case, blocks, previous, s⟩ : BlockedState).listed = opLines b k s := by
  have hops : c.ops = b.ops := by rw [hsame]
  simp only [BlockedState.listed, Engine.executing, BlockedState.opAddress, hc, Option.map_some,
    Option.bind_eq_bind, Option.bind_some, hops, hsame.address, opLines]
  cases b.ops[k]? with
  | none => rfl
  | some op =>
      obtain ⟨cir, handler⟩ := op
      cases handler with
      | none => rfl
      | some i => rfl

/-- A stretch that calls the ops of one block prints their lines. -/
theorem flatMap_listed {b : Block} {q : Nat} {ws : List BlockedState}
    (hb : ∀ v ∈ ws, ∃ c, v.blocks[q]? = some c ∧ SameBlock b c)
    (hq : ∀ x ∈ opCalls ws, x.1 = q) :
    ws.flatMap BlockedState.listed
      = ((opCalls ws).zip (opMachines ws)).flatMap fun x => opLines b x.1.2 x.2 := by
  induction ws with
  | nil => rfl
  | cons v ws ih =>
      obtain ⟨⟨c, hc, hsame⟩, hrest⟩ := List.forall_mem_cons.mp hb
      obtain ⟨control, blocks, previous, s⟩ := v
      cases control with
      | unrolled current k case =>
          obtain ⟨rfl, hq'⟩ := List.forall_mem_cons.mp hq
          rw [List.flatMap_cons, listed_eq_opLines hsame hc, ih hrest hq']
          rfl
      -- Nothing is printed elsewhere.
      | outer => exact ih hrest hq
      | inner current => exact ih hrest hq
      | test current k => exact ih hrest hq
      | leave current => exact ih hrest hq
      | returned => exact ih hrest hq

/-- A stretch without a call prints nothing. -/
theorem listed_of_opMachines {ws : List BlockedState} (h : opMachines ws = []) :
    ws.flatMap BlockedState.listed = [] := by
  induction ws with
  | nil => rfl
  | cons v ws ih =>
      obtain ⟨control, blocks, previous, s⟩ := v
      cases control with
      | unrolled current k case => cases h
      | outer => exact ih h
      | inner current => exact ih h
      | test current k => exact ih h
      | leave current => exact ih h
      | returned => exact ih h

/-- What the block engine prints for the instruction at `s`, with `nnpc` in `NNPC`. -/
def listedAt (s : Machine) (nnpc : U32) : List String :=
  lineOf s (s.reg MIPS_R_PC) nnpc ++ printedAt s

section Listing

variable {host : Host} {m : Nat → Machine} {n : Nat}

/-- The block of the switch engine prints the lines of its instructions, at their addresses. -/
theorem block_listed (hclean : CleanRun host m n) {t : Nat} {code : Code}
    (hb : SwitchBlock m n t code) {blocks : List Block} (previous : Option Nat) {q : Nat}
    {b : Block} (hq : blocks[q]? = some b) (hcode : b.Decoded code)
    (haddr : b.address = (m t).reg MIPS_R_PC) {p : Pipe} (hpc : p.pc = (m t).reg MIPS_R_PC) :
    ∃ (vs : List BlockedState) (f : BlockedState) (nnpc : Nat → U32),
      (interpreterBlocked host).Run vs ⟨.inner q, blocks, previous, (m t).withPipe p⟩ f ∧
      vs.countP BlockedState.atOp = code.length ∧
      vs.flatMap BlockedState.listed
        = (List.range code.length).flatMap fun j => listedAt (m (t + j)) (nnpc j) := by
  have hle := hb.le
  obtain ⟨body, w, d, rfl, hplain, hw, hd⟩ := hb.shape
  have hlen : (body ++ [w, d]).length = body.length + 2 := by simp
  have haligned := hb.aligned hclean
  have hpcs : ∀ j ≤ body.length + 1,
      (m (t + j)).reg MIPS_R_PC = (m t).reg MIPS_R_PC + BitVec.ofNat 32 (4 * j) :=
    fun j hj => hclean.run.pc_eq haligned (by omega) fun i hi hlt => hb.plain hi (by omega)
  let before : Pipe := { p with pc := p.pc + 4 * (b.size - 3) }
  let after : Pipe := { before with
    nnpc := target w.2 w.1 (m (t + body.length))
    branched := isTaken w.2 w.1 (m (t + body.length)) }
  let u := blockMachine m t body.length before after
  have hbefore : before.pc = (m (t + body.length)).reg MIPS_R_PC := by
    show p.pc + 4 * (b.size - 3) = _
    rw [hpcs body.length (by omega), hpc, hcode.size, hlen, four_mul_size_sub]
  have hentry : u 0 = preIncrement b ((m t).withPipe p) := (preIncrement_withPipe b (m t) p).symm
  obtain ⟨vs, hrun, hcalls, -⟩ := block_run previous hq hcode.terminated (by simp) hentry
    (blockMachine_step hclean.run hb hplain hw hd hbefore rfl)
  -- The block keeps its ops while it runs.
  have hkept := (hrun.invariant (I := fun v => ∃ c, v.blocks[q]? = some c ∧ SameBlock b c)
    (fun v v' hv _ hstep => by
      obtain ⟨c, hc, hsame⟩ := hv
      obtain ⟨c', hc', hsame'⟩ := blockedStep_keeps hstep hc
      exact ⟨c', hc', hsame.trans hsame'⟩) ⟨b, hq, .refl b⟩).2
  have hcall : opCalls vs = (List.range (body ++ [w, d]).length).map fun k => (q, k) := by
    rw [hcalls.calls, List.length_map, List.length_range, List.range_eq_range']
  refine ⟨vs, _, fun j => (u j).reg MIPS_R_NNPC, hrun, ?_, ?_⟩
  · rw [← length_opMachines, hcalls.machines, List.length_map, List.length_range]
  · rw [flatMap_listed hkept (by rw [hcall]; simp), hcall, hcalls.machines, List.zip_map',
      List.flatMap_map]
    refine List.flatMap_congr fun j hj => ?_
    have hj' : j < (body ++ [w, d]).length := List.mem_range.mp hj
    have hword : (body ++ [w, d])[j]? = some (body ++ [w, d])[j] := List.getElem?_eq_getElem hj'
    have hcurrent := hb.word j _ hword
    have hop := hcode.op_lt hword
    have hprinted : ∀ i, printedBy i (u j) = printedBy i (m (t + j)) :=
      fun i => printedBy_withPipe i (m (t + j)) _
    simp [opLines, hop, opOf, listedAt, lineOf, printedAt, hcurrent, hprinted, haddr,
      hpcs j (by omega)]

/-- Two runs from one state that call as many ops print the same. -/
theorem listed_eq_of_countP {ws vs : List BlockedState} {e f g : BlockedState}
    (h₁ : (interpreterBlocked host).Run ws e f) (h₂ : (interpreterBlocked host).Run vs e g)
    (hcount : ws.countP BlockedState.atOp = vs.countP BlockedState.atOp) :
    ws.flatMap BlockedState.listed = vs.flatMap BlockedState.listed := by
  -- One of them goes on, but it calls no op there.
  have hnil : ∀ rest : List BlockedState, rest.countP BlockedState.atOp = 0 →
      rest.flatMap BlockedState.listed = [] := fun rest h =>
    listed_of_opMachines (List.length_eq_zero_iff.mp ((length_opMachines rest).trans h))
  rcases h₁.comparable h₂ with ⟨rest, -, rfl⟩ | ⟨rest, -, rfl⟩
  · rw [List.countP_append] at hcount
    rw [List.flatMap_append, hnil rest (by omega), List.append_nil]
  · rw [List.countP_append] at hcount
    rw [List.flatMap_append, hnil rest (by omega), List.append_nil]

/-- One block, from boundary to boundary. -/
theorem simulate_block_listed (hclean : CleanRun host m n) {t : Nat} {e : BlockedState}
    (h : AtBoundary host m n t e) {code : Code} (hb : SwitchBlock m n t code) :
    ∃ (ws : List BlockedState) (f : BlockedState) (nnpc : Nat → U32),
      (interpreterBlocked host).Run ws e f ∧
      ws.flatMap BlockedState.listed
        = ((List.range code.length).flatMap fun j => listedAt (m (t + j)) (nnpc j)) ∧
      AtBoundary host m n (t + code.length) f := by
  obtain ⟨ws, f, q, hrun, hf, hops, -, hbound⟩ := enter_block hclean h hb
  obtain ⟨control, blocks, previous, s⟩ := f
  cases hf
  obtain ⟨b, hq, haddr⟩ := hbound.inv.control
  have haddr' := haddr.trans hbound.pc
  have hcode := hbound.decoded hclean hb hq haddr'
  obtain ⟨p, hmachine, hpc, -⟩ := hbound.machine
  have hs : s = (m t).withPipe p := hmachine
  subst hs
  obtain ⟨vs, g, nnpc, hblock, hcount, hlisted⟩ :=
    block_listed hclean hb previous hq hcode haddr' hpc
  -- The simulation gets to the next boundary with the same calls.
  obtain ⟨us, f, hus, -, hcount', -, hnext⟩ := simulate_block hclean h hb
  refine ⟨us, f, nnpc, hus, ?_, hnext⟩
  have hzero : ws.countP BlockedState.atOp = 0 := by
    rw [← length_opMachines, hops]
    rfl
  rw [listed_eq_of_countP hus (hrun.append hblock) (by
    rw [hcount', List.countP_append, hzero, hcount, Nat.zero_add]), List.flatMap_append,
    listed_of_opMachines hops, List.nil_append, hlisted]

/-- The first `k` blocks of a run. -/
theorem simulate_blocks_listed (hclean : CleanRun host m n) {k t : Nat}
    (hfirst : FirstBlocks m k t) (ht : t ≤ n) :
    ∃ (ws : List BlockedState) (e : BlockedState) (nnpc : Nat → U32),
      (interpreterBlocked host).Run ws (.start (m 0)) e ∧
      ws.flatMap BlockedState.listed
        = ((List.range t).flatMap fun i => listedAt (m i) (nnpc i)) ∧
      AtBoundary host m n t e := by
  induction hfirst with
  | zero => exact ⟨[], _, fun _ => 0, .refl _, rfl, atBoundary_start host m n⟩
  | @succ k t c first hle plain control ih =>
      obtain ⟨ws, e, nnpc, hrun, hlisted, hbound⟩ := ih (by omega)
      obtain ⟨code, hb, hlen⟩ := hclean.block first hle ht plain control
      obtain ⟨vs, f, nnpc', hrun', hlisted', hbound'⟩ := simulate_block_listed hclean hbound hb
      refine ⟨ws ++ vs, f, fun i => if i < t then nnpc i else nnpc' (i - t), hrun.append hrun', ?_,
        hlen ▸ hbound'⟩
      -- Each part keeps its own values of `NNPC`.
      have hbefore : ((List.range t).flatMap fun i =>
          listedAt (m i) (if i < t then nnpc i else nnpc' (i - t)))
            = (List.range t).flatMap fun i => listedAt (m i) (nnpc i) := by
        refine List.flatMap_congr fun i hi => ?_
        rw [if_pos (List.mem_range.mp hi)]
      have hafter : ((List.range code.length).flatMap fun j =>
          listedAt (m (t + j)) (if t + j < t then nnpc (t + j) else nnpc' (t + j - t)))
            = (List.range code.length).flatMap fun j => listedAt (m (t + j)) (nnpc' j) := by
        refine List.flatMap_congr fun j _ => ?_
        rw [if_neg (Nat.not_lt.mpr (Nat.le_add_right t j)), Nat.add_sub_cancel_left]
      rw [← hlen, List.range_add, List.flatMap_append, List.flatMap_append, List.flatMap_map,
        hbefore, hafter, hlisted, hlisted']

end Listing

/-- Only control transfers have a target behind them. -/
theorem operands_nnpc {i : Instr} (h : i.isControl = false) (cir nnpc nnpc' : U32) :
    i.formatter.operands cir nnpc = i.formatter.operands cir nnpc' := by
  cases i with
  | blez | bgtz | bltz | bgez | bltzal | bgezal | beq | bne | j | jal | jr | jalr => cases h
  | addi | addiu | slti | sltiu | andi | ori | xori | lui | lb | lh | lwl | lw | lbu | lhu
  | lwr | ll | sb | sh | swl | sw | sc | swr | rdhwr | brk | sll | srl | sra | sllv | srlv
  | srav | syscall | special | mfhi | mflo | mthi | mtlo | mult | multu | div | divu | add
  | addu | sub | subu | slt | sltu | and | or | xor | nor => rfl

theorem lineOf_nnpc {s : Machine} (h : atControl s = false) (pc nnpc nnpc' : U32) :
    lineOf s pc nnpc = lineOf s pc nnpc' := by
  unfold lineOf
  cases hw : currentWord s with
  | none => rfl
  | some w =>
      have hc : w.2.isControl = false := (atControl_eq hw).symm.trans h
      simp only [line, operands_nnpc hc w.1 nnpc nnpc']

/-- The listing of the block engine. For a run of the switch engine that the block engine can
follow, its `__DISASSEMBLE__` build prints the lines of the instructions executed, each with its
address, and what they print themselves. Only the targets behind control transfers can be
other ones than those of the switch engine. -/
theorem blocked_listing (host : Host) (m : Nat → Machine) (n k : Nat)
    (hclean : CleanRun host m n) (hblocks : FirstBlocks m k n) :
    ∃ (ws : List (BlockedState × List String)) (e : BlockedState) (nnpc : Nat → U32),
      (interpreterBlockedDisassemble host).Run ws (.start (m 0), [])
        (e, (List.range n).flatMap fun i =>
          lineOf (m i) ((m i).reg MIPS_R_PC) (nnpc i) ++ printedAt (m i)) ∧
      e.BetweenBlocks ∧ SameGuest e.machine (m n) ∧
      ∀ i, atControl (m i) = false →
        lineOf (m i) ((m i).reg MIPS_R_PC) (nnpc i)
          = lineOf (m i) ((m i).reg MIPS_R_PC) ((m (i + 1)).reg MIPS_R_NPC) := by
  obtain ⟨ws, e, nnpc, hrun, hlisted, hbound⟩ :=
    simulate_blocks_listed hclean hblocks (Nat.le_refl n)
  obtain ⟨vs, hvs, -⟩ := stepping_run hrun hbound.straight
  -- Between two blocks the two builds have the same machine.
  have hsame : e.stepping = e := by
    obtain ⟨control, blocks, previous, s⟩ := e
    rcases hbound.between with hcontrol | ⟨q, hcontrol⟩
    · cases hcontrol
      rfl
    · cases hcontrol
      rfl
  rw [hsame, hlisted] at hvs
  exact ⟨vs, e, nnpc, hvs, hbound.between, hbound.sameGuest, fun i hi => lineOf_nnpc hi _ _ _⟩

/-- A line is printed behind the lines before. -/
theorem interpreterBlockedDisassemble_appends (host : Host) :
    (interpreterBlockedDisassemble host).Appends := by
  rintro ⟨⟨control, blocks, previous, s⟩, printed⟩ q hstep
  cases control with
  | unrolled current k case =>
      obtain ⟨b, -, hstep⟩ := bind_eq_ok.mp hstep
      obtain ⟨⟨cir, handler⟩, -, hstep⟩ := bind_eq_ok.mp hstep
      cases handler with
      | none => cases hstep
      | some i =>
          obtain ⟨⟨t, more⟩, -, hstep⟩ := bind_eq_ok.mp hstep
          cases hstep
          exact List.prefix_append printed more
  | inner current =>
      obtain ⟨b, -, hstep⟩ := bind_eq_ok.mp hstep
      cases hstep
      exact List.prefix_refl printed
  | outer | test current k | leave current =>
      obtain ⟨e, -, rfl⟩ := map_eq_ok.mp hstep
      exact List.prefix_refl printed
  | returned =>
      cases hstep
      exact List.prefix_refl printed

theorem length_lineOf (s : Machine) (pc pc' nnpc nnpc' : U32) :
    (lineOf s pc nnpc).length = (lineOf s pc' nnpc').length := by
  unfold lineOf
  cases currentWord s with
  | none => simp
  | some w => simp

/-- How many lines there are does not depend on the addresses in them. -/
theorem length_lines (m : Nat → Machine) (n : Nat) (pc nnpc : Nat → U32) :
    ((List.range n).flatMap fun i => lineOf (m i) (pc i) (nnpc i) ++ printedAt (m i)).length
      = ((List.range n).map fun i => (lineOf (m i) 0 0 ++ printedAt (m i)).length).sum := by
  rw [List.length_flatMap]
  simp only [List.length_append, length_lineOf (m _) (pc _) 0 (nnpc _) 0]

/-- Two rounds of the two blocks. No branch has its own target behind it: the first one has the
`NNPC` of the start, and each of the others the target of the branch before it. -/
abbrev pingPongLines : List String :=
  [line .addiu 0x25080001 0x400000 0, line .beq 0x10000001 0x400004 0x400008,
    line .sll 0 0x400008 0, line .addiu 0x25290001 0x40000c 0,
    line .beq 0x1000fffb 0x400010 0x40000c, line .sll 0 0x400014 0,
    line .addiu 0x25080001 0x400000 0, line .beq 0x10000001 0x400004 0x400000,
    line .sll 0 0x400008 0, line .addiu 0x25290001 0x40000c 0,
    line .beq 0x1000fffb 0x400010 0x40000c, line .sll 0 0x400014 0]

theorem blocked_listing_pingPong :
    ∃ (ws : List (BlockedState × List String)) (e : BlockedState),
      (interpreterBlockedDisassemble failingHost).Run ws (.start pingPong, [])
        (e, pingPongLines) ∧
      SameGuest e.machine (runStates failingHost pingPong 12) := by
  obtain ⟨ws, e, nnpc, hws, -, hsame, -⟩ :=
    blocked_listing failingHost _ 12 4 pingPong_clean pingPong_blocks
  -- A run that prints as many lines, by evaluation.
  obtain ⟨f, hf, hlines⟩ : ∃ f, (interpreterBlockedDisassemble failingHost).exec 26
      (.start pingPong, []) = .ok f ∧ decide (f.2 = pingPongLines) = true :=
    okWith_eq_true.mp (by decide +kernel)
  have hlines : f.2 = pingPongLines := of_decide_eq_true hlines
  have hcount : ((List.range 12).map fun i =>
      (lineOf (runStates failingHost pingPong i) 0 0
        ++ printedAt (runStates failingHost pingPong i)).length).sum = 12 := by decide +kernel
  obtain ⟨vs, hvs⟩ := reaches_of_exec hf
  have hlength := (length_lines (runStates failingHost pingPong) 12
    (fun i => (runStates failingHost pingPong i).reg MIPS_R_PC) nnpc).trans hcount
  have heq := hws.output_eq (interpreterBlockedDisassemble_appends failingHost) hvs
    (hlength.trans (congrArg List.length hlines).symm)
  refine ⟨ws, e, ?_, hsame⟩
  rw [← hlines, ← heq]
  exact hws

end MipsEngines
