import MipsEngines.Lib.StepMachine
import MipsEngines.Proofs.Decode
import MipsEngines.Proofs.Frames
import MipsEngines.Proofs.Pipeline
import MipsEngines.Proofs.Switch

/-!
# `MipsEngines.Proofs.SwitchBlocks`: a run of the switch engine, cut into blocks

The switch engine knows no blocks. Its run is cut into them here: a block goes up to
the first control transfer and the word after it, the delay slot (`FirstBlocks`).

* `plain_step` and `control_step`: what one instruction does, under the pipe of the
  switch engine and under any other one.
* `CleanRun.aligned`: every block starts with `NPC = PC + 4` and `NNPC = PC + 8`.
* `SwitchBlock.codeAt`: as long as nothing writes to decoded words, memory holds the
  code of every block the run has entered.
* `pingPong_clean`: a run of two blocks that go to each other, by evaluation.
-/

set_option autoImplicit false

namespace MipsEngines

open Lib

/-! ### The instructions of a run -/

/-- The states of a run of the switch engine, `n` instructions long. -/
structure SwitchRun (host : Host) (m : Nat → Machine) (n : Nat) : Prop where
  running : ∀ i, i < n → (m i).mips.halted = false
  step : ∀ i, i < n → switchStep host (m i) = .ok (m (i + 1))

/-- It is a run of the machine `interpreterSwitch`. -/
theorem SwitchRun.run {host : Host} {m : Nat → Machine} {n : Nat} (h : SwitchRun host m n) :
    (interpreterSwitch host).Run ((List.range n).map m) (m 0) (m n) := by
  induction n with
  | zero => exact .refl _
  | succ n ih =>
      have hfirst := ih ⟨fun i hi => h.running i (by omega), fun i hi => h.step i (by omega)⟩
      rw [List.range_succ, List.map_append]
      exact hfirst.snoc (h.running n (by omega)) (h.step n (by omega))

/-- The word at the program counter, with its handler. -/
def currentWord (s : Machine) : Option (U32 × Instr) :=
  match fetch s with
  | .ok cir => (switchDispatch cir).map fun i => (cir, i)
  | .error _ => none

/-- The instruction at the program counter is a control transfer. -/
def atControl (s : Machine) : Bool := (currentWord s).any fun w => w.2.isControl

/-- The instruction at the program counter is a store or a system call. -/
def atStore (s : Machine) : Bool := (currentWord s).any fun w => !w.2.leavesMemory

/-- `PC`, `NPC` and `NNPC` are three words in a row, as `loader_load_pc` leaves them. -/
def Aligned (s : Machine) : Prop :=
  s.reg MIPS_R_NPC = s.reg MIPS_R_PC + 4 ∧ s.reg MIPS_R_NNPC = s.reg MIPS_R_PC + 8

/-- The first `t` instructions of a run are its first `k` blocks. A block ends with the
word after its first control transfer. -/
inductive FirstBlocks (m : Nat → Machine) : Nat → Nat → Prop
  | zero : FirstBlocks m 0 0
  | succ {k t c : Nat} (first : FirstBlocks m k t) (hle : t ≤ c)
      (plain : ∀ j, t ≤ j → j < c → atControl (m j) = false) (control : atControl (m c) = true) :
      FirstBlocks m (k + 1) (c + 2)

/-- No control transfer is executed in the delay slot of another one. -/
def NoControlInDelaySlot (m : Nat → Machine) (n : Nat) : Prop :=
  ∀ j, j + 1 < n → atControl (m j) = true → atControl (m (j + 1)) = false

/-- No instruction of the run changes a word of a block that the run has entered. The
words of the block entered at `t` are those executed from there up to its delay slot. -/
def CodeKept (m : Nat → Machine) (n : Nat) : Prop :=
  ∀ k t j u, FirstBlocks m k t → t ≤ j → j < n →
    (∀ i, t ≤ i → i + 1 < j → atControl (m i) = false) → t ≤ u → u < n →
    memoryReadU32 (m (u + 1)).memory ((m j).reg MIPS_R_PC)
      = memoryReadU32 (m u).memory ((m j).reg MIPS_R_PC)

/-- A run the block engine can follow: it starts as `loader_load_pc` leaves the pipeline,
executes no control transfer in a delay slot, and keeps the code it has entered. -/
structure CleanRun (host : Host) (m : Nat → Machine) (n : Nat) : Prop where
  run : SwitchRun host m n
  start : Aligned (m 0)
  delay : NoControlInDelaySlot m n
  kept : CodeKept m n

/-! ### One instruction -/

section Step

variable {host : Host} {s s' : Machine}

theorem currentWord_eq_some {w : U32 × Instr} :
    currentWord s = some w ↔ fetch s = .ok w.1 ∧ switchDispatch w.1 = some w.2 := by
  unfold currentWord
  cases fetch s with
  | error e => simp
  | ok cir =>
      simp only [Option.map_eq_some_iff, Except.ok.injEq]
      constructor
      · rintro ⟨i, hi, rfl⟩
        exact ⟨rfl, hi⟩
      · rintro ⟨rfl, hi⟩
        exact ⟨w.2, hi, rfl⟩

/-- A round of the loop, by its word. -/
theorem switchStep_currentWord (h : switchStep host s = .ok s') :
    ∃ w t, currentWord s = some w ∧ execute host w.2 w.1 s = .ok t ∧ s' = incrementPc t := by
  obtain ⟨cir, i, t, hcir, hi, ht, rfl⟩ := switchStep_eq_ok.mp h
  exact ⟨(cir, i), t, currentWord_eq_some.mpr ⟨hcir, hi⟩, ht, rfl⟩

theorem atControl_eq {w : U32 × Instr} (h : currentWord s = some w) :
    atControl s = w.2.isControl := by
  unfold atControl
  rw [h]
  rfl

/-- An instruction that is no control transfer: the pipe moves on by one word, and the
handler does the same under any other pipe. -/
theorem plain_step {w : U32 × Instr} (h : switchStep host s = .ok s')
    (hw : currentWord s = some w) (hc : w.2.isControl = false) :
    s'.pipe = s.pipe.increment ∧
      ∀ p, execute host w.2 w.1 (s.withPipe p) = .ok (s'.withPipe p) := by
  obtain ⟨w', t, hw', ht, rfl⟩ := switchStep_currentWord h
  have hww : w' = w := Option.some.inj (hw'.symm.trans hw)
  subst hww
  rw [incrementPc_eq]
  constructor
  · rw [Machine.pipe_withPipe, execute_pipe hc ht]
  · intro p
    rw [execute_withPipe host hc w'.1 s p, ht, map_ok, Machine.withPipe_withPipe]

/-- A control transfer: the word after next is its target. Under any other pipe with the
same `PC`, the handler stores the same target and the same `branched`. -/
theorem control_step {w : U32 × Instr} (h : switchStep host s = .ok s')
    (hw : currentWord s = some w) (hc : w.2.isControl = true) :
    s'.pipe = ⟨s.reg MIPS_R_NPC, target w.2 w.1 s, target w.2 w.1 s + 4, isTaken w.2 w.1 s⟩ ∧
      ∀ p, p.pc = s.reg MIPS_R_PC → execute host w.2 w.1 (s.withPipe p) =
        .ok (s'.withPipe { p with nnpc := target w.2 w.1 s, branched := isTaken w.2 w.1 s }) := by
  obtain ⟨w', t, hw', ht, rfl⟩ := switchStep_currentWord h
  have hww : w' = w := Option.some.inj (hw'.symm.trans hw)
  subst hww
  rw [execute_control host hc] at ht
  cases ht
  rw [incrementPc_eq]
  constructor
  · rfl
  · intro p hp
    rw [execute_control host hc, link_withPipe _ _ _ _ hp, target_withPipe _ _ _ _ hp,
      isTaken_withPipe]
    simp

end Step

/-! ### The pipe along a block -/

theorem add_four_mul (pc : U32) (k : Nat) :
    pc + BitVec.ofNat 32 (4 * k) + 4 = pc + BitVec.ofNat 32 (4 * (k + 1)) := by
  rw [Nat.mul_succ, BitVec.ofNat_add, BitVec.add_assoc]
  rfl

/-- The distance from a block of `k + 2` ops and a terminator to its control transfer. -/
theorem four_mul_size_sub (k : Nat) :
    4 * (BitVec.ofNat 32 (k + 3) - 3) = BitVec.ofNat 32 (4 * k) := by
  rw [BitVec.ofNat_add, show (3 : U32) = BitVec.ofNat 32 3 from rfl, BitVec.add_sub_cancel,
    BitVec.ofNat_mul]
  rfl

section Run

variable {host : Host} {m : Nat → Machine} {n : Nat}

theorem SwitchRun.word (h : SwitchRun host m n) {j : Nat} (hj : j < n) :
    ∃ w, currentWord (m j) = some w := by
  obtain ⟨w, -, hw, -, -⟩ := switchStep_currentWord (h.step j hj)
  exact ⟨w, hw⟩

/-- Only stores and system calls change memory. -/
theorem SwitchRun.memory_eq (h : SwitchRun host m n) {u : Nat} (hu : u < n)
    (hstore : atStore (m u) = false) : (m (u + 1)).memory = (m u).memory := by
  obtain ⟨w, t, hw, ht, hnext⟩ := switchStep_currentWord (h.step u hu)
  have hleaves : w.2.leavesMemory = true := by simpa [atStore, hw] using hstore
  rw [hnext]
  exact (execute_memory hleaves ht).2

/-- Along instructions that are no control transfers the pipe moves on word by word. -/
theorem SwitchRun.plain_pipe (h : SwitchRun host m n) {t : Nat} (ht : Aligned (m t)) (k : Nat)
    (hk : t + k ≤ n) (hplain : ∀ j, t ≤ j → j < t + k → atControl (m j) = false) :
    Aligned (m (t + k)) ∧
      (m (t + k)).reg MIPS_R_PC = (m t).reg MIPS_R_PC + BitVec.ofNat 32 (4 * k) ∧
      (m (t + k)).mips.branched = (m t).mips.branched := by
  induction k with
  | zero => exact ⟨ht, by simp, rfl⟩
  | succ k ih =>
      obtain ⟨⟨hnpc, hnnpc⟩, hpc, hbranched⟩ :=
        ih (by omega) fun j hj hjk => hplain j hj (by omega)
      obtain ⟨w, hw⟩ := h.word (show t + k < n by omega)
      have hc : w.2.isControl = false := by
        rw [← atControl_eq hw]
        exact hplain (t + k) (by omega) (by omega)
      -- A plain instruction leaves the pipe to the increment.
      have hpipe := (plain_step (h.step (t + k) (by omega)) hw hc).1
      have hpc' : (m (t + k + 1)).reg MIPS_R_PC = (m (t + k)).reg MIPS_R_NPC :=
        congrArg Pipe.pc hpipe
      have hnpc' : (m (t + k + 1)).reg MIPS_R_NPC = (m (t + k)).reg MIPS_R_NNPC :=
        congrArg Pipe.npc hpipe
      have hnnpc' : (m (t + k + 1)).reg MIPS_R_NNPC = (m (t + k)).reg MIPS_R_NNPC + 4 :=
        congrArg Pipe.nnpc hpipe
      refine ⟨⟨?_, ?_⟩, ?_, (congrArg Pipe.branched hpipe).trans hbranched⟩
      · show (m (t + k + 1)).reg MIPS_R_NPC = (m (t + k + 1)).reg MIPS_R_PC + 4
        rw [hnpc', hpc', hnpc, hnnpc, BitVec.add_assoc]
        rfl
      · show (m (t + k + 1)).reg MIPS_R_NNPC = (m (t + k + 1)).reg MIPS_R_PC + 8
        rw [hnnpc', hpc', hnpc, hnnpc, BitVec.add_assoc, BitVec.add_assoc]
        rfl
      · show (m (t + k + 1)).reg MIPS_R_PC = _
        rw [hpc', hnpc, hpc, add_four_mul]

/-- A control transfer at the end of an aligned stretch, and the word in its delay slot:
the next word is the target, and the pipe is aligned again. -/
theorem SwitchRun.control_pipe (h : SwitchRun host m n) {c : Nat} (hc : Aligned (m c))
    (hn : c + 2 ≤ n) {w d : U32 × Instr} (hw : currentWord (m c) = some w)
    (hd : currentWord (m (c + 1)) = some d) (hwc : w.2.isControl = true)
    (hdc : d.2.isControl = false) :
    (m (c + 1)).reg MIPS_R_PC = (m c).reg MIPS_R_PC + 4 ∧ Aligned (m (c + 2)) ∧
      (m (c + 2)).reg MIPS_R_PC = target w.2 w.1 (m c) ∧
      (m (c + 2)).mips.branched = isTaken w.2 w.1 (m c) := by
  have hpipe := (control_step (h.step c (by omega)) hw hwc).1
  have hpipe' := (plain_step (h.step (c + 1) (by omega)) hd hdc).1
  rw [hpipe] at hpipe'
  have hnpc : (m (c + 2)).reg MIPS_R_NPC = target w.2 w.1 (m c) + 4 := congrArg Pipe.npc hpipe'
  have hnnpc : (m (c + 2)).reg MIPS_R_NNPC = target w.2 w.1 (m c) + 4 + 4 :=
    congrArg Pipe.nnpc hpipe'
  have hpc : (m (c + 2)).reg MIPS_R_PC = target w.2 w.1 (m c) := congrArg Pipe.pc hpipe'
  refine ⟨(congrArg Pipe.pc hpipe).trans hc.1, ⟨?_, ?_⟩, hpc, congrArg Pipe.branched hpipe'⟩
  · rw [hnpc, hpc]
  · rw [hnnpc, hpc, BitVec.add_assoc]
    rfl

/-- Every block starts aligned. -/
theorem CleanRun.aligned (h : CleanRun host m n) {k t : Nat} (hfirst : FirstBlocks m k t)
    (ht : t ≤ n) : Aligned (m t) := by
  induction hfirst with
  | zero => exact h.start
  | @succ k t c first hle plain control ih =>
      obtain ⟨j, rfl⟩ := Nat.exists_eq_add_of_le hle
      have hc := (h.run.plain_pipe (ih (by omega)) j (by omega) plain).1
      obtain ⟨w, hw⟩ := h.run.word (show t + j < n by omega)
      obtain ⟨d, hd⟩ := h.run.word (show t + j + 1 < n by omega)
      have hwc : w.2.isControl = true := by rw [← atControl_eq hw, control]
      have hdc : d.2.isControl = false := by
        rw [← atControl_eq hd, h.delay (t + j) (by omega) control]
      exact (h.run.control_pipe hc ht hw hd hwc hdc).2.1

/-! ### The code of a block -/

/-- The code of the complete block entered at `t`. -/
structure SwitchBlock (m : Nat → Machine) (n t : Nat) (code : Code) : Prop where
  first : ∃ k, FirstBlocks m k t
  word : ∀ j w, code[j]? = some w → currentWord (m (t + j)) = some w
  le : t + code.length ≤ n
  shape : ∃ body w d, code = body ++ [w, d] ∧ (∀ v ∈ body, v.2.isControl = false) ∧
    w.2.isControl = true ∧ d.2.isControl = false

/-- The words of a stretch of the run. -/
theorem SwitchRun.words (h : SwitchRun host m n) (t k : Nat) (hk : t + k ≤ n) :
    ∃ code : Code, code.length = k ∧ ∀ j w, code[j]? = some w → currentWord (m (t + j)) = some w := by
  induction k with
  | zero => exact ⟨[], rfl, by intro j w h; simp at h⟩
  | succ k ih =>
      obtain ⟨code, hlen, hwords⟩ := ih (by omega)
      obtain ⟨w, hw⟩ := h.word (show t + k < n by omega)
      refine ⟨code ++ [w], by simp [hlen], fun j v hv => ?_⟩
      rcases getElem?_concat_eq_some.mp hv with hv | ⟨rfl, rfl⟩
      · exact hwords j v hv
      · rw [hlen]
        exact hw

/-- A complete block of the run has its code. -/
theorem CleanRun.block (h : CleanRun host m n) {k t c : Nat} (first : FirstBlocks m k t)
    (hle : t ≤ c) (hn : c + 2 ≤ n) (plain : ∀ j, t ≤ j → j < c → atControl (m j) = false)
    (control : atControl (m c) = true) :
    ∃ code, SwitchBlock m n t code ∧ t + code.length = c + 2 := by
  obtain ⟨body, hlen, hbody⟩ := h.run.words t (c - t) (by omega)
  obtain ⟨w, hw⟩ := h.run.word (show c < n by omega)
  obtain ⟨d, hd⟩ := h.run.word (show c + 1 < n by omega)
  refine ⟨body ++ [w, d], ⟨⟨k, first⟩, ?_, by simp; omega, body, w, d, rfl, ?_, ?_, ?_⟩,
    by simp; omega⟩
  · -- A word of the body, the control transfer, or its delay slot.
    have hc : t + body.length = c := by omega
    intro j v hv
    rw [show body ++ [w, d] = body ++ [w] ++ [d] by simp] at hv
    rcases getElem?_concat_eq_some.mp hv with hv | ⟨rfl, rfl⟩
    · rcases getElem?_concat_eq_some.mp hv with hv | ⟨rfl, rfl⟩
      · exact hbody j v hv
      · rw [hc]
        exact hw
    · rw [List.length_append, List.length_singleton, ← Nat.add_assoc, hc]
      exact hd
  · intro v hv
    obtain ⟨j, hj, rfl⟩ := List.getElem_of_mem hv
    rw [← atControl_eq (hbody j _ (List.getElem?_eq_getElem hj))]
    exact plain (t + j) (by omega) (by omega)
  · rw [← atControl_eq hw, control]
  · rw [← atControl_eq hd, h.delay c (by omega) control]

/-- `CodeAt`, word by word. -/
theorem codeAt_iff {memory : Memory} {code : Code} : ∀ {pc : U32},
    CodeAt memory pc code ↔ ∀ j w, code[j]? = some w →
      memoryReadU32 memory (pc + BitVec.ofNat 32 (4 * j)) = .ok w.1 ∧
        tableDispatch w.1 = .ok w.2 := by
  induction code with
  | nil => intro pc; simp [CodeAt]
  | cons v code ih =>
      intro pc
      -- Word `j + 1` of the longer code is word `j` of the shorter one, four bytes on.
      have hnext : ∀ j, pc + BitVec.ofNat 32 (4 * (j + 1)) = pc + 4 + BitVec.ofNat 32 (4 * j) := by
        intro j
        rw [← add_four_mul, BitVec.add_assoc, BitVec.add_comm (BitVec.ofNat 32 (4 * j)),
          ← BitVec.add_assoc]
      constructor
      · rintro ⟨hread, hi, hrest⟩ j w hw
        cases j with
        | zero =>
            cases hw
            exact ⟨by simpa using hread, hi⟩
        | succ j =>
            rw [hnext]
            exact ih.mp hrest j w hw
      · intro hall
        obtain ⟨hread, hi⟩ := hall 0 v rfl
        refine ⟨by simpa using hread, hi, ih.mpr fun j w hw => ?_⟩
        have h := hall (j + 1) w hw
        rwa [hnext] at h

/-- Where the words of a stretch lie, if no control transfer comes before its last two. -/
theorem SwitchRun.pc_eq (h : SwitchRun host m n) {t : Nat} (ht : Aligned (m t)) {j : Nat}
    (hj : t + j < n) (hplain : ∀ i, t ≤ i → i + 1 < t + j → atControl (m i) = false) :
    (m (t + j)).reg MIPS_R_PC = (m t).reg MIPS_R_PC + BitVec.ofNat 32 (4 * j) := by
  cases j with
  | zero => simp
  | succ j =>
      obtain ⟨⟨hnpc, -⟩, hpc, -⟩ :=
        h.plain_pipe ht j (by omega) fun i hi hij => hplain i hi (by omega)
      obtain ⟨w, hw⟩ := h.word (show t + j < n by omega)
      -- Plain or not, the instruction moves `NPC` to `PC`.
      have hnext : (m (t + j + 1)).reg MIPS_R_PC = (m (t + j)).reg MIPS_R_NPC := by
        cases hc : w.2.isControl with
        | false => exact congrArg Pipe.pc (plain_step (h.step (t + j) (by omega)) hw hc).1
        | true => exact congrArg Pipe.pc (control_step (h.step (t + j) (by omega)) hw hc).1
      show (m (t + j + 1)).reg MIPS_R_PC = _
      rw [hnext, hnpc, hpc, add_four_mul]

/-- The words of a stretch that starts a block are in memory from the start of the block
to the end of the run. -/
theorem CleanRun.codeAt (h : CleanRun host m n) {k t : Nat} (first : FirstBlocks m k t)
    {code : Code}
    (hword : ∀ j w, code[j]? = some w → currentWord (m (t + j)) = some w)
    (hle : t + code.length ≤ n)
    (hplain : ∀ i, t ≤ i → i + 2 < t + code.length → atControl (m i) = false) {u : Nat}
    (htu : t ≤ u) (hun : u ≤ n) : CodeAt (m u).memory ((m t).reg MIPS_R_PC) code := by
  rw [codeAt_iff]
  intro j w hw
  have hj : j < code.length := (List.getElem?_eq_some_iff.mp hw).1
  obtain ⟨hfetch, hi⟩ := currentWord_eq_some.mp (hword j w hw)
  refine ⟨?_, tableDispatch_eq_ok_iff.mpr hi⟩
  have hplain' : ∀ i, t ≤ i → i + 1 < t + j → atControl (m i) = false :=
    fun i hi hij => hplain i hi (by omega)
  rw [← h.run.pc_eq (h.aligned first (by omega)) (by omega) hplain']
  -- What is read there stays the same from `t` on, and at `t + j` it is the word executed.
  have hconst : ∀ v, t + v ≤ n →
      memoryReadU32 (m (t + v)).memory ((m (t + j)).reg MIPS_R_PC)
        = memoryReadU32 (m t).memory ((m (t + j)).reg MIPS_R_PC) := by
    intro v
    induction v with
    | zero => intro _; rfl
    | succ v ih =>
        intro hv
        rw [← ih (by omega)]
        exact h.kept k t (t + j) (t + v) first (by omega) (by omega) hplain' (by omega) (by omega)
  obtain ⟨v, rfl⟩ := Nat.exists_eq_add_of_le htu
  rw [hconst v hun, ← hconst j (by omega)]
  exact hfetch

/-- Words that are no control transfers, then one that is, then its delay slot. -/
theorem chain_of_plain {body : Code} {w d : U32 × Instr}
    (hplain : ∀ v ∈ body, v.2.isControl = false) (hw : w.2.isControl = true)
    (hd : d.2.isControl = false) : Chain false (body ++ [w, d]) := by
  induction body with
  | nil => exact .control hw (.last hd)
  | cons v body ih => exact .plain (hplain v (by simp)) (ih fun u hu => hplain u (by simp [hu]))

/-- Such a code in one memory is shorter than the address space: past `2 ^ 30` words the
addresses come round again, and the control transfer would be one of the words before. -/
theorem length_le_of_codeAt {memory : Memory} {pc : U32} {body : Code} {w d : U32 × Instr}
    (hcode : CodeAt memory pc (body ++ [w, d])) (hplain : ∀ v ∈ body, v.2.isControl = false)
    (hw : w.2.isControl = true) : (body ++ [w, d]).length ≤ decodeFuel := by
  have hlen : body.length < 2 ^ 30 := by
    by_contra hge
    -- `2 ^ 30` words later the address is back at word `r`, which would then be `w`.
    obtain ⟨r, hr⟩ := Nat.exists_eq_add_of_le (Nat.not_lt.mp hge)
    have hlt : r < body.length := by omega
    have hgetw : (body ++ [w, d])[body.length]? = some w := by simp
    have hgetv : (body ++ [w, d])[r]? = some body[r] := by
      rw [List.getElem?_append_left hlt, List.getElem?_eq_getElem hlt]
    obtain ⟨hreadw, hiw⟩ := codeAt_iff.mp hcode _ _ hgetw
    obtain ⟨hreadv, hiv⟩ := codeAt_iff.mp hcode _ _ hgetv
    have hwrap : BitVec.ofNat 32 (4 * body.length) = BitVec.ofNat 32 (4 * r) := by
      apply BitVec.eq_of_toNat_eq
      rw [BitVec.toNat_ofNat, BitVec.toNat_ofNat]
      omega
    rw [hwrap, hreadv] at hreadw
    have hcir : body[r].1 = w.1 := Except.ok.inj hreadw
    rw [hcir, hiw] at hiv
    have hi : w.2 = body[r].2 := Except.ok.inj hiv
    rw [hi, hplain _ (List.getElem_mem hlt)] at hw
    cases hw
  have hfuel : decodeFuel = 2 ^ 30 + 2 := rfl
  rw [List.length_append, List.length_cons, List.length_singleton]
  omega

namespace SwitchBlock

variable {t : Nat} {code : Code}

/-- Before its control transfer, a block has none. -/
theorem plain (hb : SwitchBlock m n t code) {i : Nat} (hi : t ≤ i) (hlt : i + 2 < t + code.length) :
    atControl (m i) = false := by
  obtain ⟨body, w, d, rfl, hplain, -, -⟩ := hb.shape
  obtain ⟨j, rfl⟩ := Nat.exists_eq_add_of_le hi
  have hj : j < body.length := by
    simp at hlt
    omega
  have hw : (body ++ [w, d])[j]? = some body[j] := by
    rw [List.getElem?_append_left hj, List.getElem?_eq_getElem hj]
  rw [atControl_eq (hb.word j _ hw)]
  exact hplain _ (List.getElem_mem hj)

theorem aligned (hb : SwitchBlock m n t code) (h : CleanRun host m n) : Aligned (m t) := by
  obtain ⟨k, first⟩ := hb.first
  exact h.aligned first (Nat.le_trans (Nat.le_add_right _ _) hb.le)

/-- The code of a block stays in memory. -/
theorem codeAt (hb : SwitchBlock m n t code) (h : CleanRun host m n) {u : Nat} (htu : t ≤ u)
    (hun : u ≤ n) : CodeAt (m u).memory ((m t).reg MIPS_R_PC) code := by
  obtain ⟨k, first⟩ := hb.first
  exact h.codeAt first hb.word hb.le (fun i hi hlt => hb.plain hi hlt) htu hun

/-- What `decode_block` makes of the block: a chain that its fuel is enough for. -/
theorem decoded (hb : SwitchBlock m n t code) (h : CleanRun host m n) :
    Chain false code ∧ code.length ≤ decodeFuel := by
  have hle := hb.le
  have hcode := hb.codeAt h (Nat.le_refl t) (by omega)
  obtain ⟨body, w, d, rfl, hplain, hw, hd⟩ := hb.shape
  exact ⟨chain_of_plain hplain hw hd, length_le_of_codeAt hcode hplain hw⟩

/-- What decodes at the program counter after `t` instructions is the block of the run. -/
theorem unique (hb : SwitchBlock m n t code) (h : CleanRun host m n) {code' : Code}
    (hchain : Chain false code') (hcode : CodeAt (m t).memory ((m t).reg MIPS_R_PC) code') :
    code' = code := by
  have hle := hb.le
  exact hchain.unique (hb.decoded h).1 hcode (hb.codeAt h (Nat.le_refl t) (by omega))

end SwitchBlock

end Run

/-! ### Runs by evaluation -/

/-- The states of the run that `exec` computes, `s` where it fails. -/
def runStates (host : Host) (s : Machine) (i : Nat) : Machine :=
  match (interpreterSwitch host).exec i s with
  | .ok t => t
  | .error _ => s

theorem switchRun_runStates {host : Host} {s : Machine} {n : Nat}
    (hrunning : ∀ i, i < n → okWith (fun t => !t.mips.halted)
      ((interpreterSwitch host).exec i s) = true)
    (hlast : okWith (fun _ => true) ((interpreterSwitch host).exec n s) = true) :
    SwitchRun host (runStates host s) n := by
  have hok : ∀ i, i ≤ n →
      (interpreterSwitch host).exec i s = .ok (runStates host s i) := by
    intro i hi
    obtain ⟨t, ht⟩ : ∃ t, (interpreterSwitch host).exec i s = .ok t := by
      rcases Nat.lt_or_ge i n with hlt | hge
      · obtain ⟨t, ht, -⟩ := okWith_eq_true.mp (hrunning i hlt)
        exact ⟨t, ht⟩
      · obtain ⟨t, ht, -⟩ := okWith_eq_true.mp hlast
        exact ⟨t, (Nat.le_antisymm hi hge) ▸ ht⟩
    rw [runStates, ht]
  have hrun : ∀ i, i < n → (runStates host s i).mips.halted = false := by
    intro i hi
    have h := hrunning i hi
    rw [hok i (Nat.le_of_lt hi)] at h
    simpa [okWith] using h
  refine ⟨hrun, fun i hi => ?_⟩
  have hsucc := StepMachine.exec_succ (M := interpreterSwitch host) i s
  rw [hok (i + 1) hi, hok i (Nat.le_of_lt hi), ok_bind] at hsucc
  rw [show (interpreterSwitch host).done (runStates host s i) = false from hrun i hi,
    if_neg (by decide)] at hsucc
  exact hsucc.symm

/-- A run that leaves memory alone keeps its code. -/
theorem codeKept_of_memory {m : Nat → Machine} {n : Nat}
    (h : ∀ u, u < n → (m (u + 1)).memory = (m u).memory) : CodeKept m n := by
  intro k t j u _ _ _ _ _ hu
  rw [h u hu]

/-- A clean run by evaluation, of a program that leaves memory alone. -/
theorem cleanRun_runStates {host : Host} {s : Machine} {n : Nat}
    (hrunning : ∀ i, i < n → okWith (fun t => !t.mips.halted)
      ((interpreterSwitch host).exec i s) = true)
    (hlast : okWith (fun _ => true) ((interpreterSwitch host).exec n s) = true)
    (hstart : Aligned s)
    (hdelay : ∀ j, j < n - 1 → atControl (runStates host s j) = true →
      atControl (runStates host s (j + 1)) = false)
    (hkept : ∀ u, u < n → (runStates host s (u + 1)).memory = (runStates host s u).memory) :
    CleanRun host (runStates host s) n where
  run := switchRun_runStates hrunning hlast
  start := hstart
  delay j hj := hdelay j (by omega)
  kept := codeKept_of_memory hkept

/-- The two blocks of `pingPong`, each entered twice. -/
theorem pingPong_clean : CleanRun failingHost (runStates failingHost pingPong) 12 := by
  have hstore : ∀ u, u < 12 → atStore (runStates failingHost pingPong u) = false := by
    decide +kernel
  have hrun : SwitchRun failingHost (runStates failingHost pingPong) 12 :=
    switchRun_runStates (by decide +kernel) (by decide +kernel)
  exact cleanRun_runStates (by decide +kernel) (by decide +kernel) ⟨rfl, rfl⟩ (by decide +kernel)
    fun u hu => hrun.memory_eq hu (hstore u hu)

theorem pingPong_blocks : FirstBlocks (runStates failingHost pingPong) 4 12 := by
  have hblock : ∀ i, i < 4 → atControl (runStates failingHost pingPong (3 * i)) = false ∧
      atControl (runStates failingHost pingPong (3 * i + 1)) = true := by decide +kernel
  have hfirst : ∀ i ≤ 4, FirstBlocks (runStates failingHost pingPong) i (3 * i) := by
    intro i hi
    induction i with
    | zero => exact .zero
    | succ i ih =>
        refine .succ (c := 3 * i + 1) (ih (by omega)) (by omega) (fun j hle hlt => ?_)
          (hblock i hi).2
        obtain rfl : j = 3 * i := by omega
        exact (hblock i hi).1
  exact hfirst 4 (Nat.le_refl 4)

end MipsEngines
