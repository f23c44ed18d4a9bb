import MipsEngines.Proofs.BlockRun
import MipsEngines.Proofs.SwitchBlocks

/-!
# `MipsEngines.Proofs.BlockSimulation`: the block engine simulates the switch engine

The engines hold the same guest state wherever the block engine is between two blocks.
Within a block they do not: the block engine keeps `PC` at the last control transfer and
has no `NPC`. So the simulation goes block by block. `AtBoundary` is the relation between
two blocks: the machine is that of the switch engine under another pipe, with the
same `PC` and `branched`, and every cached block is one the run has been through.
`simulate_block` is the step, `blocked_simulates_switch` the result over `k` blocks.
-/

set_option autoImplicit false

namespace MipsEngines

open Lib StepMachine

/-- Two machines with the same guest state. `NPC` and `NNPC` are left out: the block engine
does not maintain them. -/
structure SameGuest (s t : Machine) : Prop where
  /-- `r[0..31]`, `HI` and `LO`. -/
  reg : ∀ i : Reg, i.val < 34 → s.reg i = t.reg i
  pc : s.reg MIPS_R_PC = t.reg MIPS_R_PC
  branched : s.mips.branched = t.mips.branched
  status : s.mips.status = t.mips.status
  tidptr : s.mips.tidptr = t.mips.tidptr
  userLocalPtr : s.mips.userLocalPtr = t.mips.userLocalPtr
  halted : s.mips.halted = t.mips.halted
  /-- The pages, and the marks of the `brk` and `mmap` heaps. -/
  memory : s.memory = t.memory
  calls : s.calls = t.calls

/-- A machine under another pipe with the same `PC` and `branched`. -/
theorem sameGuest_withPipe {s : Machine} {p : Pipe} (hpc : p.pc = s.reg MIPS_R_PC)
    (hbranched : p.branched = s.mips.branched) : SameGuest (s.withPipe p) s where
  reg _ hi := Machine.reg_withPipe hi s p
  pc := hpc
  branched := hbranched
  status := rfl
  tidptr := rfl
  userLocalPtr := rfl
  halted := rfl
  memory := rfl
  calls := rfl

/-- The block engine is between two blocks. -/
def BlockedState.BetweenBlocks (e : BlockedState) : Prop :=
  e.control = .outer ∨ ∃ p, e.control = .inner p

/-- The block engine between two blocks, after `t` instructions of the switch engine. -/
structure AtBoundary (host : Host) (m : Nat → Machine) (n t : Nat) (e : BlockedState) : Prop where
  reaches : (interpreterBlocked host).Reaches (.start (m 0)) e
  between : e.BetweenBlocks
  /-- A halted machine is back in the outer loop. -/
  outer : e.machine.mips.halted = true → e.control = .outer
  machine : ∃ p : Pipe, e.machine = (m t).withPipe p ∧ p.pc = (m t).reg MIPS_R_PC ∧
    p.branched = (m t).mips.branched
  cached : ∀ (q : Nat) (b : Block), e.blocks[q]? = some b → ∃ t' code,
    SwitchBlock m n t' code ∧ t' ≤ t ∧ b.address = (m t').reg MIPS_R_PC ∧ b.Decoded code

namespace AtBoundary

variable {host : Host} {m : Nat → Machine} {n t : Nat} {e : BlockedState}

theorem pc (h : AtBoundary host m n t e) : e.machine.reg MIPS_R_PC = (m t).reg MIPS_R_PC := by
  obtain ⟨p, hp, hpc, -⟩ := h.machine
  rw [hp]
  exact hpc

theorem halted (h : AtBoundary host m n t e) : e.machine.mips.halted = (m t).mips.halted := by
  obtain ⟨p, hp, -, -⟩ := h.machine
  rw [hp]
  rfl

theorem memory (h : AtBoundary host m n t e) : e.machine.memory = (m t).memory := by
  obtain ⟨p, hp, -, -⟩ := h.machine
  rw [hp]
  rfl

theorem sameGuest (h : AtBoundary host m n t e) : SameGuest e.machine (m t) := by
  obtain ⟨p, hp, hpc, hbranched⟩ := h.machine
  rw [hp]
  exact sameGuest_withPipe hpc hbranched

theorem inv (h : AtBoundary host m n t e) : BlockedInv e :=
  (blockedInv_start (m 0)).of_reaches h.reaches

end AtBoundary

/-- The engine starts at a boundary. -/
theorem atBoundary_start (host : Host) (m : Nat → Machine) (n : Nat) :
    AtBoundary host m n 0 (.start (m 0)) where
  reaches := .refl _
  between := .inl rfl
  outer _ := rfl
  machine := ⟨(m 0).pipe, (Machine.withPipe_pipe _).symm, rfl, rfl⟩
  cached := by intro q b h; simp [BlockedState.start] at h

section Simulation

variable {host : Host} {m : Nat → Machine} {n : Nat}

/-- A cached block at the program counter is the decoding of the block of the run:
its words are still in memory. -/
theorem AtBoundary.decoded {t : Nat} {e : BlockedState} (h : AtBoundary host m n t e)
    (hclean : CleanRun host m n) {code : Code} (hb : SwitchBlock m n t code) {q : Nat} {b : Block}
    (hq : e.blocks[q]? = some b) (haddr : b.address = (m t).reg MIPS_R_PC) : b.Decoded code := by
  obtain ⟨t', code', hb', hle', haddr', hcode'⟩ := h.cached q b hq
  have hle := hb.le
  have hmem := hb'.codeAt hclean hle' (by omega)
  rw [← haddr', haddr] at hmem
  rw [← hb.unique hclean hcode'.chain hmem]
  exact hcode'

/-- The blocks after a step from a boundary: those of the run, and one decoded at the program
counter. -/
theorem AtBoundary.block_of_step {t : Nat} {e f : BlockedState} (h : AtBoundary host m n t e)
    (hstep : blockedStep host e = .ok f) {q : Nat} {b : Block} (hq : f.blocks[q]? = some b) :
    (∃ t' code, SwitchBlock m n t' code ∧ t' ≤ t ∧ b.address = (m t').reg MIPS_R_PC ∧
        b.Decoded code) ∨
      ∃ code, b.address = (m t).reg MIPS_R_PC ∧ b.Decoded code ∧
        CodeAt (m t).memory ((m t).reg MIPS_R_PC) code := by
  rcases blockedStep_block hstep hq with ⟨b₀, hb₀, hsame⟩ | ⟨-, hhalt, b₀, hb₀, hsame⟩
  · obtain ⟨t', code, hb, hle, haddr, hcode⟩ := h.cached q b₀ hb₀
    exact .inl ⟨t', code, hb, hle, hsame.address.trans haddr, hsame.decoded hcode⟩
  · obtain ⟨code, hlen, hcode, hchain, rfl⟩ := (decodeBlock_eq_ok hhalt).mp hb₀
    have hpc : e.machine.mips.r MIPS_R_PC = (m t).reg MIPS_R_PC := h.pc
    rw [hpc, h.memory] at hcode
    exact .inr ⟨code, hsame.address.trans hpc, hsame.decoded (blockOf_decoded hlen hchain), hcode⟩

/-- From a boundary the engine gets to the head of the inner loop: it is there, or it finds
the block, or decodes it. No op is called. -/
theorem enter_block (hclean : CleanRun host m n) {t : Nat} {e : BlockedState}
    (h : AtBoundary host m n t e) {code : Code} (hb : SwitchBlock m n t code) :
    ∃ ws f q, (interpreterBlocked host).Run ws e f ∧ f.control = .inner q ∧
      opMachines ws = [] ∧ ws.countP BlockedState.atBlock = 0 ∧ AtBoundary host m n t f := by
  rcases h.between with hcontrol | ⟨q, hq⟩
  · -- At `outer`: the block is in the cache, or it is decoded now.
    have hlt : t < n := by
      have hle := hb.le
      obtain ⟨body, w, d, rfl, -, -⟩ := hb.shape
      simp at hle
      omega
    obtain ⟨control, blocks, previous, s⟩ := e
    cases hcontrol
    have hhalt : s.mips.halted = false := h.halted.trans (hclean.run.running t hlt)
    have hpc : s.reg MIPS_R_PC = (m t).reg MIPS_R_PC := h.pc
    have hmem : s.memory = (m t).memory := h.memory
    obtain ⟨q, f, hstep, hf, hmachine⟩ : ∃ q f, blockedStep host ⟨.outer, blocks, previous, s⟩
        = .ok f ∧ f.control = .inner q ∧ f.machine = s := by
      cases hfind : hashFind blocks (s.reg MIPS_R_PC) with
      | some q => exact ⟨q, _, blockedStep_outer_found host previous s hhalt hfind, rfl, rfl⟩
      | none =>
          -- The code has not changed since `t`, so the decoder finds the words of the run.
          obtain ⟨hchain, hlen⟩ := hb.decoded hclean
          have hcode := hb.codeAt hclean (Nat.le_refl t) (Nat.le_of_lt hlt)
          rw [← hpc, ← hmem] at hcode
          have hdecode := (decodeBlock_eq_ok hhalt).mpr ⟨code, hlen, hcode, hchain, rfl⟩
          exact ⟨_, _, blockedStep_outer_new host previous s hhalt hfind hdecode, rfl, rfl⟩
    have hrun : (interpreterBlocked host).Run [⟨.outer, blocks, previous, s⟩] _ f :=
      .single rfl hstep
    refine ⟨_, f, q, hrun, hf, rfl, rfl, h.reaches.trans ⟨_, hrun⟩, .inr ⟨q, hf⟩, ?_, ?_, ?_⟩
    · rw [hmachine, hhalt]
      intro hne
      cases hne
    · rw [hmachine]
      exact h.machine
    · intro p b hp
      -- A block decoded by this step is the one that starts at `t`.
      rcases h.block_of_step hstep hp with hcached | ⟨code', haddr', hcode', hat'⟩
      · exact hcached
      · have heq := hb.unique hclean hcode'.chain hat'
        subst heq
        exact ⟨t, code', hb, Nat.le_refl t, haddr', hcode'⟩
  · -- Entered through a link.
    exact ⟨[], e, q, .refl e, hq, rfl, rfl, h⟩

/-- The machine of the block engine before op `j` of a block: the one of the switch engine,
with `PC` at the control transfer all along, and with its target from there on. -/
def blockMachine (m : Nat → Machine) (t last : Nat) (before after : Pipe) (j : Nat) : Machine :=
  (m (t + j)).withPipe (if j ≤ last then before else after)

/-- The ops of a block do what the instructions of the switch engine do. -/
theorem blockMachine_step (hrun : SwitchRun host m n) {t : Nat} {body : Code}
    {w d : U32 × Instr} (hb : SwitchBlock m n t (body ++ [w, d]))
    (hplain : ∀ v ∈ body, v.2.isControl = false) (hw : w.2.isControl = true)
    (hd : d.2.isControl = false) {before after : Pipe}
    (hpc : before.pc = (m (t + body.length)).reg MIPS_R_PC)
    (hafter : after = { before with
      nnpc := target w.2 w.1 (m (t + body.length))
      branched := isTaken w.2 w.1 (m (t + body.length)) }) (j : Nat) (v : U32 × Instr)
    (hv : (body ++ [w, d])[j]? = some v) :
    execute host v.2 v.1 (blockMachine m t body.length before after j)
      = .ok (blockMachine m t body.length before after (j + 1)) := by
  have hle := hb.le
  have hlen : (body ++ [w, d]).length = body.length + 2 := by simp
  have hj : j < (body ++ [w, d]).length := (List.getElem?_eq_some_iff.mp hv).1
  have hstep := hrun.step (t + j) (by omega)
  have hword := hb.word j v hv
  unfold blockMachine
  rcases Nat.lt_trichotomy j body.length with hlt | rfl | hgt
  · -- Before the control transfer.
    rw [List.getElem?_append_left hlt] at hv
    have hvc := hplain v (List.mem_of_getElem? hv)
    rw [if_pos (by omega), if_pos (by omega)]
    exact (plain_step hstep hword hvc).2 before
  · have hwv : w = v := by simpa using hv
    subst hwv
    rw [if_pos (Nat.le_refl _), if_neg (by omega), hafter]
    exact (control_step hstep hword hw).2 before hpc
  · -- The delay slot.
    have hjd : j = body.length + 1 := by omega
    subst hjd
    have hdv : d = v := by simpa using hv
    subst hdv
    rw [if_neg (by omega), if_neg (by omega)]
    exact (plain_step hstep hword hd).2 after

/-- The block of the switch engine, from the head of the inner loop to the end of its block.
The pipe holds `PC` and `branched` of the switch engine again. -/
theorem run_block (hclean : CleanRun host m n) {t : Nat} {code : Code}
    (hb : SwitchBlock m n t code) {blocks : List Block} (previous : Option Nat) {q : Nat}
    {b : Block} (hq : blocks[q]? = some b) (hcode : b.Decoded code) {p : Pipe}
    (hpc : p.pc = (m t).reg MIPS_R_PC) :
    ∃ vs after, (interpreterBlocked host).Run vs
        ⟨.inner q, blocks, previous, (m t).withPipe p⟩
        ⟨afterBlock b ((m (t + code.length)).withPipe after).mips, blocks, some q,
          (m (t + code.length)).withPipe after⟩ ∧
      after.pc = (m (t + code.length)).reg MIPS_R_PC ∧
      after.branched = (m (t + code.length)).mips.branched ∧
      vs.countP BlockedState.atBlock = 1 ∧ vs.countP BlockedState.atOp = code.length ∧
      ∀ s ∈ opMachines vs, s.mips.halted = false := by
  have hle := hb.le
  obtain ⟨body, w, d, rfl, hplain, hw, hd⟩ := hb.shape
  have hlen : (body ++ [w, d]).length = body.length + 2 := by simp
  -- Where the switch engine is at the control transfer of the block, and after it.
  have hwordw : currentWord (m (t + body.length)) = some w := hb.word body.length w (by simp)
  have hwordd : currentWord (m (t + body.length + 1)) = some d :=
    hb.word (body.length + 1) d (by simp)
  obtain ⟨halignedc, hpcc, -⟩ := hclean.run.plain_pipe (hb.aligned hclean) body.length (by omega)
    fun i hi hlt => hb.plain hi (by omega)
  obtain ⟨-, -, hpcend, hbranchedend⟩ :=
    hclean.run.control_pipe halignedc (by omega) hwordw hwordd hw hd
  let before : Pipe := { p with pc := p.pc + 4 * (b.size - 3) }
  let after : Pipe := { before with
    nnpc := target w.2 w.1 (m (t + body.length))
    branched := isTaken w.2 w.1 (m (t + body.length)) }
  have hbefore : before.pc = (m (t + body.length)).reg MIPS_R_PC := by
    show p.pc + 4 * (b.size - 3) = _
    rw [hpcc, hpc, hcode.size, hlen, four_mul_size_sub]
  have hentry : blockMachine m t body.length before after 0 = preIncrement b ((m t).withPipe p) :=
    (preIncrement_withPipe b (m t) p).symm
  obtain ⟨vs, hblock, hcalls, hone⟩ := block_run previous hq hcode.terminated (by simp) hentry
    (blockMachine_step hclean.run hb hplain hw hd hbefore rfl)
  have hend : blockMachine m t body.length before after (body ++ [w, d]).length
      = (m (t + (body ++ [w, d]).length)).withPipe after := by
    rw [blockMachine, if_neg (by omega)]
  rw [hend] at hblock
  -- The block is left: the target moves from `NNPC` to `PC`.
  have hleave := blockedStep_leave host previous
    ((m (t + (body ++ [w, d]).length)).withPipe after) hq
  rw [setReg_pc_withPipe] at hleave
  refine ⟨_, { after with pc := target w.2 w.1 (m (t + body.length)) }, hblock.snoc rfl hleave,
    ?_, ?_, ?_, ?_, ?_⟩
  · rw [hlen]
    exact hpcend.symm
  · rw [hlen]
    exact hbranchedend.symm
  · rw [List.countP_append, hone]
    rfl
  · rw [← length_opMachines, opMachines_append, hcalls.machines]
    simp [opMachines, BlockedState.atOp]
  · intro u hu
    rw [opMachines_append, hcalls.machines] at hu
    obtain ⟨j, hj, rfl⟩ : ∃ j, j < (body ++ [w, d]).length ∧
        blockMachine m t body.length before after j = u := by
      simpa [opMachines, BlockedState.atOp] using hu
    exact hclean.run.running (t + j) (by omega)

/-- One block. From a boundary the engine runs the block of the switch engine and is at the
next boundary. It calls an op for each instruction, on machines that are not halted. -/
theorem simulate_block (hclean : CleanRun host m n) {t : Nat} {e : BlockedState}
    (h : AtBoundary host m n t e) {code : Code} (hb : SwitchBlock m n t code) :
    ∃ ws f, (interpreterBlocked host).Run ws e f ∧ ws.countP BlockedState.atBlock = 1 ∧
      ws.countP BlockedState.atOp = code.length ∧
      (∀ s ∈ opMachines ws, s.mips.halted = false) ∧
      AtBoundary host m n (t + code.length) f := by
  obtain ⟨ws, f, q, hrun, hf, hops, hcount, hbound⟩ := enter_block hclean h hb
  obtain ⟨control, blocks, previous, s⟩ := f
  cases hf
  obtain ⟨b, hq, haddr⟩ := hbound.inv.control
  have hcode := hbound.decoded hclean hb hq (haddr.trans hbound.pc)
  -- The two machines differ in the pipe only.
  obtain ⟨p, hmachine, hpc, -⟩ := hbound.machine
  have hs : s = (m t).withPipe p := hmachine
  subst hs
  obtain ⟨vs, after, hblock, hpcend, hbranchedend, hone, hlength, hrunning⟩ :=
    run_block hclean hb previous hq hcode hpc
  have hrun' := hrun.append hblock
  -- After the block: back to `outer`, or on through a link if nothing halted.
  have hafter := afterBlock_cases b ((m (t + code.length)).withPipe after).mips
  refine ⟨ws ++ vs, _, hrun', ?_, ?_, ?_, ?_⟩
  · rw [List.countP_append, hcount, hone]
  · rw [List.countP_append, ← length_opMachines ws, hops, hlength]
    exact Nat.zero_add _
  · rw [opMachines_append, hops]
    exact hrunning
  · constructor
    case reaches => exact h.reaches.trans ⟨_, hrun'⟩
    case between =>
      rcases hafter with hcontrol | ⟨q', hcontrol, -⟩
      · exact .inl hcontrol
      · exact .inr ⟨q', hcontrol⟩
    case outer =>
      intro hhalt
      rcases hafter with hcontrol | ⟨q', -, -, -, hgoes⟩
      · exact hcontrol
      · exact absurd (hgoes.symm.trans hhalt) (by decide)
    case machine => exact ⟨after, rfl, hpcend, hbranchedend⟩
    case cached =>
      intro q' b' hq'
      -- Running a block adds none to the cache.
      obtain ⟨t', code', hb', hle', hrest⟩ := hbound.cached q' b' hq'
      exact ⟨t', code', hb', Nat.le_trans hle' (Nat.le_add_right _ _), hrest⟩

/-- The first `k` blocks of a run. -/
theorem simulate_blocks (hclean : CleanRun host m n) {k t : Nat} (hfirst : FirstBlocks m k t)
    (ht : t ≤ n) :
    ∃ ws e, (interpreterBlocked host).Run ws (.start (m 0)) e ∧
      ws.countP BlockedState.atBlock = k ∧ ws.countP BlockedState.atOp = t ∧
      (∀ s ∈ opMachines ws, s.mips.halted = false) ∧ AtBoundary host m n t e := by
  induction hfirst with
  | zero => exact ⟨[], _, .refl _, rfl, rfl, by simp, atBoundary_start host m n⟩
  | @succ k t c first hle plain control ih =>
      obtain ⟨ws, e, hrun, hblocks, hops, hhalted, hbound⟩ := ih (by omega)
      obtain ⟨code, hb, hlen⟩ := hclean.block first hle ht plain control
      obtain ⟨vs, f, hrun', hone, hops', hhalted', hbound'⟩ := simulate_block hclean hbound hb
      refine ⟨ws ++ vs, f, hrun.append hrun', ?_, ?_, ?_, hlen ▸ hbound'⟩
      · rw [List.countP_append, hblocks, hone]
      · rw [List.countP_append, hops, hops', hlen]
      · intro s hs
        rw [opMachines_append] at hs
        rcases List.mem_append.mp hs with hs | hs
        · exact hhalted s hs
        · exact hhalted' s hs

/-- The block engine simulates the switch engine. Take a run of the switch engine of `n`
instructions that make up `k` blocks. After `k` blocks the block engine has called as
many ops, and is between two blocks with the same guest state. -/
theorem blocked_simulates_switch (host : Host) (m : Nat → Machine) (n k : Nat)
    (hclean : CleanRun host m n) (hblocks : FirstBlocks m k n) :
    ∃ ws e, (interpreterBlocked host).Run ws (.start (m 0)) e ∧ e.BetweenBlocks ∧
      ws.countP BlockedState.atBlock = k ∧ ws.countP BlockedState.atOp = n ∧
      SameGuest e.machine (m n) := by
  obtain ⟨ws, e, hrun, hcount, hops, -, hbound⟩ :=
    simulate_blocks hclean hblocks (Nat.le_refl n)
  exact ⟨ws, e, hrun, hbound.between, hcount, hops, hbound.sameGuest⟩

end Simulation

/-- Four blocks, of which two are decoded. The third one is found in the cache, and the fourth
one through the link that the first one has to it. -/
theorem blocked_simulates_switch_pingPong :
    ∃ ws e, (interpreterBlocked failingHost).Run ws (.start pingPong) e ∧
      e.BetweenBlocks ∧ ws.countP BlockedState.atBlock = 4 ∧
      ws.countP BlockedState.atOp = 12 ∧
      SameGuest e.machine (runStates failingHost pingPong 12) :=
  blocked_simulates_switch failingHost _ 12 4 pingPong_clean pingPong_blocks

end MipsEngines
