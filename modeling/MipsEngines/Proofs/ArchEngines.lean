import MipsEngines.Proofs.Architecture
import MipsEngines.Proofs.BlockHalt
import MipsEngines.Proofs.Profile

/-!
# `MipsEngines.Proofs.ArchEngines`: every engine implements the architecture

A run of the processor is a run of the switch engine (`run_refines`), and runs of the switch
engine are followed by the other three. Put together: `architecture_every_engine`.

What the block engine asks for is stated of the processor alone. No transfer stands in the delay
slot of another one, the run ends behind a delay slot, and the words it executes stay as
they are (`KeepsCode`), since the engine decodes a word once and never again.
-/

set_option autoImplicit false

namespace MipsEngines

open Lib StepMachine Arch

/-! ### Runs of the processor -/

def Arch.Instruction.isTransfer : Instruction → Bool
  | .branch .. | .jump .. | .jr .. | .jalr .. => true
  | _ => false

/-- The word at `address` is a transfer. -/
def Arch.State.transferAt (v : State) (address : U32) : Bool :=
  match v.word address with
  | .ok w => (decode w).any Instruction.isTransfer
  | .error _ => false

/-- No transfer is in the delay slot of another one. -/
def NoTransferInDelaySlot (visited : List State) : Prop :=
  ∀ v ∈ visited, v.transferAt v.pc = true → v.transferAt v.npc = false

/-- The words that are executed do not change. -/
def KeepsCode (visited : List State) (a' : State) : Prop :=
  ∀ v ∈ visited, ∀ u ∈ visited ++ [a'], u.word v.pc = v.word v.pc

/-- The run ends behind a delay slot, or is empty. -/
def EndsBlock (visited : List State) : Prop :=
  visited = [] ∨ ∃ before c d, visited = before ++ [c, d] ∧ c.transferAt c.pc = true

/-- What a program can see of the state: `Refines` without the registers that only delay slots
need. -/
structure Shows (s : Machine) (a : State) : Prop where
  general : ∀ r, s.reg (gpr r) = a.reg r
  hi : s.reg MIPS_R_HI = a.hi
  lo : s.reg MIPS_R_LO = a.lo
  pc : s.reg MIPS_R_PC = a.pc
  bytes : flat s.memory = a.bytes
  running : s.mips.halted = false

theorem Refines.shows {s : Machine} {a : State} (h : Refines s a) : Shows s a :=
  ⟨h.general, h.hi, h.lo, h.pc, h.bytes, h.running⟩

/-- The same guest state shows the same. -/
theorem Shows.of_sameGuest {s t : Machine} {a : State} (h : Shows t a) (hs : SameGuest s t) :
    Shows s a where
  general r := (hs.reg _ (gpr_lt r)).trans (h.general r)
  hi := (hs.reg _ (by decide)).trans h.hi
  lo := (hs.reg _ (by decide)).trans h.lo
  pc := hs.pc.trans h.pc
  bytes := hs.memory ▸ h.bytes
  running := hs.halted.trans h.running

section Engines

variable {host : Host} {s : Machine} {a a' : State} {visited : List State}

/-- The handlers of transfers are the control transfers of the engines. -/
theorem isControl_handler (i : Instruction) : i.handler.isControl = i.isTransfer := by
  cases i with
  | alu op => cases op <;> rfl
  | imm op => cases op <;> rfl
  | shift op => cases op <;> rfl
  | shiftVar op => cases op <;> rfl
  | mulDiv op => cases op <;> rfl
  | load op => cases op <;> rfl
  | store op => cases op <;> rfl
  | branch cond link => cases cond <;> cases link <;> rfl
  | jump link => cases link <;> rfl
  | lui | mfhi | mflo | mthi | mtlo | jr | jalr | sync | syscall | «break» => rfl

/-- The engine is at a control transfer when the processor is. -/
theorem atControl_eq_transferAt (hr : Refines s a) {w : U32} (hw : a.word a.pc = .ok w)
    {i : Instruction} (hi : decode w = some i) : atControl s = a.transferAt a.pc := by
  have hdispatch := (decode_spec hi).1
  have hcurrent : currentWord s = some (w, i.handler) :=
    currentWord_eq_some.mpr ⟨fetch_eq hr hw, hdispatch⟩
  rw [atControl_eq hcurrent, State.transferAt, hw]
  simp [hi, isControl_handler]

/-- The run of the switch engine, state by state. -/
theorem run_refines_states (host : Host) (hr : Refines s a) (hrun : processor.Run visited a a')
    (hregular : ∀ v ∈ visited, Regular v) :
    ∃ m : Nat → Machine, SwitchRun host m visited.length ∧ m 0 = s ∧
      Refines (m visited.length) a' ∧ (m visited.length).calls = s.calls ∧
      ∀ i v, visited[i]? = some v → Refines (m i) v := by
  induction hrun generalizing s with
  | refl => exact ⟨fun _ => s, ⟨by simp, by simp⟩, rfl, hr, rfl, by simp⟩
  | @head a a₁ a' visited _ hstep _ ih =>
      obtain ⟨hfirst, hrest⟩ := List.forall_mem_cons.mp hregular
      obtain ⟨s₁, hs₁, hr₁, hcalls₁⟩ := step_refines host hr hfirst hstep
      obtain ⟨m, hm, hm₀, hend, hcalls, hstates⟩ := ih hr₁ hrest
      -- The machines of the rest come one place later.
      refine ⟨fun i => if i = 0 then s else m (i - 1), ⟨?_, ?_⟩, rfl, ?_, ?_, ?_⟩
      · intro i hi
        cases i with
        | zero => exact hr.running
        | succ i => exact hm.running i (by simpa using hi)
      · intro i hi
        cases i with
        | zero =>
            show switchStep host s = .ok (m 0)
            rw [hm₀]
            exact hs₁
        | succ i => exact hm.step i (by simpa using hi)
      · exact hend
      · exact hcalls.trans hcalls₁
      · intro i v hv
        cases i with
        | zero =>
            cases hv
            exact hr
        | succ i => exact hstates i v hv

/-- A visited state has an instruction. -/
theorem current_of_mem (hrun : processor.Run visited a a') {v : State} (hv : v ∈ visited) :
    ∃ w i e, v.word v.pc = .ok w ∧ decode w = some i ∧ v.execute i = .ok e ∧
      processor.step v = .ok (v.apply e) := by
  obtain ⟨v', hstep⟩ := hrun.step_of_mem v hv
  obtain ⟨⟨i, e⟩, hcurrent, happly⟩ := bind_eq_ok.mp hstep
  cases happly
  obtain ⟨w, hw, hi, he⟩ := current_eq_ok hcurrent
  exact ⟨w, i, e, hw, hi, he, hstep⟩

/-- A transfer leaves the memory alone, and every instruction goes on to `npc`. -/
theorem transferAt_next {v v' : State} (hrun : processor.Run visited a a') {j : Nat}
    (hv : visited[j]? = some v) (hv' : visited[j + 1]? = some v')
    (htransfer : v.transferAt v.pc = true) : v'.transferAt v'.pc = v.transferAt v.npc := by
  obtain ⟨w, i, e, hw, hi, he, hstep⟩ := current_of_mem hrun (List.mem_of_getElem? hv)
  have hnext := hrun.step_getElem hv hv'
  rw [hstep] at hnext
  cases hnext
  have hi' : i.isTransfer = true := by
    simpa [State.transferAt, hw, hi] using htransfer
  have heffect : ∃ reg goal, e = .transfer reg goal := by
    cases i with
    | branch => exact ⟨_, _, (transfer_eq_ok he).1⟩
    | jump => exact ⟨_, _, (transfer_eq_ok he).1⟩
    | jr => exact ⟨_, _, (transfer_eq_ok he).1⟩
    | jalr => exact ⟨_, _, (transfer_eq_ok he).1⟩
    | _ => cases hi'
  obtain ⟨reg, goal, rfl⟩ := heffect
  rfl

/-- The run of the switch engine is one that the block engine can follow. -/
theorem clean_of_refines {m : Nat → Machine} (hrun : processor.Run visited a a')
    (halign : a.npc = a.pc + 4) (hdelay : NoTransferInDelaySlot visited)
    (hcode : KeepsCode visited a') (hr : Refines (m 0) a)
    (hm : SwitchRun host m visited.length)
    (hstates : ∀ i v, visited[i]? = some v → Refines (m i) v)
    (hend : Refines (m visited.length) a') : CleanRun host m visited.length := by
  have hat : ∀ i v, visited[i]? = some v → atControl (m i) = v.transferAt v.pc := by
    intro i v hv
    obtain ⟨w, i', e, hw, hi, -, -⟩ := current_of_mem hrun (List.mem_of_getElem? hv)
    exact atControl_eq_transferAt (hstates i v hv) hw hi
  refine ⟨hm, ⟨?_, ?_⟩, ?_, ?_⟩
  · rw [hr.npc, hr.pc, halign]
  · rw [hr.nnpc, hr.pc, halign, BitVec.add_assoc]
    rfl
  · intro j hj hcontrol
    have hv : visited[j]? = some visited[j] := List.getElem?_eq_getElem (by omega)
    have hv' : visited[j + 1]? = some visited[j + 1] := List.getElem?_eq_getElem hj
    rw [hat j _ hv] at hcontrol
    rw [hat (j + 1) _ hv', transferAt_next hrun hv hv' hcontrol]
    exact hdelay _ (List.mem_of_getElem? hv) hcontrol
  · -- A word of the run is read the same in all of its states.
    intro k t j u _ _ hj _ _ hu
    have hv : visited[j]? = some visited[j] := List.getElem?_eq_getElem hj
    obtain ⟨w, i, e, hw, -, -, -⟩ := current_of_mem hrun (List.mem_of_getElem? hv)
    have hread : ∀ i x, (visited ++ [a'])[i]? = some x → Refines (m i) x →
        memoryReadU32 (m i).memory ((m j).reg MIPS_R_PC) = .ok w := by
      intro i x hx hrx
      rw [(hstates j _ hv).pc]
      refine word_value hrx.bytes ?_
      rw [hcode _ (List.mem_of_getElem? hv) x (List.mem_of_getElem? hx)]
      exact hw
    have hall : ∀ i ≤ visited.length,
        memoryReadU32 (m i).memory ((m j).reg MIPS_R_PC) = .ok w := by
      intro i hi
      rcases Nat.lt_or_eq_of_le hi with hlt | rfl
      · have hx : visited[i]? = some visited[i] := List.getElem?_eq_getElem hlt
        exact hread i _ (by rw [List.getElem?_append_left hlt]; exact hx) (hstates i _ hx)
      · exact hread _ a' List.getElem?_concat_length hend
    rw [hall (u + 1) hu, hall u (Nat.le_of_lt hu)]

/-- It ends with a complete block. -/
theorem exitInDelaySlot_of_endsBlock {m : Nat → Machine} (hrun : processor.Run visited a a')
    (hends : EndsBlock visited) (hstates : ∀ i v, visited[i]? = some v → Refines (m i) v) :
    ExitInDelaySlot m visited.length := by
  rcases hends with rfl | ⟨before, c, d, rfl, htransfer⟩
  · exact .inl rfl
  · refine .inr ⟨before.length, by simp, ?_⟩
    have hc : (before ++ [c, d])[before.length]? = some c := by simp
    obtain ⟨w, i, e, hw, hi, -, -⟩ := current_of_mem hrun (List.mem_of_getElem? hc)
    rw [atControl_eq_transferAt (hstates _ c hc) hw hi, htransfer]

end Engines

/-- Every engine implements the architecture. Take any run of the processor from a state with
`npc = pc + 4`, as the loader leaves it, over instructions that are none of the source's
exceptions, that ends behind a delay slot, with no transfer in a delay slot and no change to a
word it executes. Each engine, started on the same state, goes through as many handlers and then
shows the state of the processor, without a host call. The tail-call engine dispatches the word
after the last one, which has to be an instruction. -/
theorem architecture_every_engine (host : Host) (s : Machine) (a a' : State)
    (visited : List State) (hr : Refines s a) (halign : a.npc = a.pc + 4)
    (hrun : processor.Run visited a a') (hregular : ∀ v ∈ visited, Regular v)
    (hdelay : NoTransferInDelaySlot visited) (hcode : KeepsCode visited a')
    (hends : EndsBlock visited) (engine : Engine)
    (hnext : engine = .tailCall → ∃ w i, a'.word a'.pc = .ok w ∧ decode w = some i) :
    ∃ ws st, (engine.interpreter host).Run ws (engine.start s) st ∧
      (engine.handled ws).length = visited.length ∧ Shows (engine.machine st) a' ∧
      (engine.machine st).calls = s.calls := by
  obtain ⟨m, hm, rfl, hend, hcalls, hstates⟩ := run_refines_states host hr hrun hregular
  have hclean := clean_of_refines hrun halign hdelay hcode hr hm hstates hend
  obtain ⟨k, hblocks⟩ :=
    hclean.firstBlocks_of_delaySlot (exitInDelaySlot_of_endsBlock hrun hends hstates)
  have hsupported : engine = .tailCall → NextWordSupported (m visited.length) := by
    intro htail
    obtain ⟨w, i, hw, hi⟩ := hnext htail
    exact ⟨w, i.handler, fetch_eq hend hw, (decode_spec hi).1⟩
  obtain ⟨ws, st, hws, hlen, hsame⟩ := engine_follows hclean hblocks engine hsupported
  exact ⟨ws, st, hws, hlen, hend.shows.of_sameGuest hsame, hsame.calls.trans hcalls⟩

/-- The words of `countdown` up to the delay slot of its branch, with their addresses. -/
abbrev countdownCode : List (U32 × U32) :=
  [(0x400000, 0x24080003), (0x400004, 0x2508ffff), (0x400008, 0x1500fffe), (0x40000c, 0)]

/-- These words are in memory. -/
def hasCountdown (v : State) : Bool := countdownCode.all fun x => okWith (· == x.2) (v.word x.1)

/-- A state of the loop. -/
def inCountdown (v : State) : Bool :=
  decide (Regular v) && hasCountdown v && countdownCode.any (·.1 == v.pc)
    && !(v.transferAt v.pc && v.transferAt v.npc)

theorem keepsCode_countdown {visited : List State} {a' : State}
    (hin : ∀ v ∈ visited, inCountdown v = true) (hend : hasCountdown a' = true) :
    KeepsCode visited a' := by
  -- The words at the addresses of the list are those of the list, in any of the states.
  have hword : ∀ u, hasCountdown u = true → ∀ x ∈ countdownCode, u.word x.1 = .ok x.2 := by
    intro u hu x hx
    obtain ⟨w, hw, heq⟩ := okWith_eq_true.mp (List.all_eq_true.mp hu x hx)
    rw [hw, eq_of_beq heq]
  have hhas : ∀ u ∈ visited ++ [a'], hasCountdown u = true := by
    intro u hu
    rcases List.mem_append.mp hu with hu | hu
    · have hu' := hin u hu
      simp only [inCountdown, Bool.and_eq_true] at hu'
      exact hu'.1.1.2
    · rw [List.mem_singleton.mp hu]
      exact hend
  intro v hv u hu
  have hv' := hin v hv
  simp only [inCountdown, Bool.and_eq_true] at hv'
  obtain ⟨x, hx, hpc⟩ := List.any_eq_true.mp hv'.1.2
  rw [← eq_of_beq hpc, hword u (hhas u hu) x hx,
    hword v (hhas v (List.mem_append_left _ hv)) x hx]

/-- The loop that counts down from three, run by the block engine. -/
theorem architecture_every_engine_countdown :
    ∃ ws e, (interpreterBlocked failingHost).Run ws (.start countdown) e ∧
      e.machine.reg MIPS_R_PC = 0x400010 ∧ e.machine.reg (MipsEngines.gpr 8) = 0 := by
  obtain ⟨c, hc, hp⟩ : ∃ c, processor.execUntil (fun v => !inCountdown v) 8
      (archState countdown rfl) = .ok c ∧ (inCountdown c && c.transferAt c.pc &&
        okWith (fun d => inCountdown d && okWith (fun a' => hasCountdown a' &&
          decide (a'.pc = 0x400010) && decide (a'.reg 8 = 0)) (processor.step d))
          (processor.step c)) = true :=
    okWith_eq_true.mp (by decide +kernel)
  obtain ⟨visited, hrun, hin⟩ := run_of_execUntil hc
  simp only [Bool.and_eq_true] at hp
  obtain ⟨⟨hinc, htransfer⟩, hp⟩ := hp
  obtain ⟨d, hd, hp⟩ := okWith_eq_true.mp hp
  simp only [Bool.and_eq_true] at hp
  obtain ⟨hind, hp⟩ := hp
  obtain ⟨a', ha', hp⟩ := okWith_eq_true.mp hp
  simp only [Bool.and_eq_true, decide_eq_true_eq] at hp
  obtain ⟨⟨hhas, hpc⟩, hzero⟩ := hp
  have hall : ∀ v ∈ visited ++ [c, d], inCountdown v = true := by
    intro v hv
    rcases List.mem_append.mp hv with hv | hv
    · simpa using hin v hv
    · simp only [List.mem_cons, List.not_mem_nil, or_false] at hv
      rcases hv with rfl | rfl
      · exact hinc
      · exact hind
  obtain ⟨ws, e, hws, -, hshows, -⟩ := architecture_every_engine failingHost countdown
    (archState countdown rfl) a' (visited ++ [c, d]) (refines_archState rfl rfl rfl) rfl
    (hrun.append (.head rfl hd (.single rfl ha')))
    (fun v hv => by
      have hv' := hall v hv
      simp only [inCountdown, Bool.and_eq_true, decide_eq_true_eq] at hv'
      exact hv'.1.1.1)
    (fun v hv htransfer => by
      have hv' := hall v hv
      simp only [inCountdown, Bool.and_eq_true] at hv'
      simpa [htransfer] using hv'.2)
    (keepsCode_countdown hall hhas) (.inr ⟨visited, c, d, rfl, htransfer⟩) .blocked nofun
  exact ⟨ws, e, hws, hshows.pc.trans hpc, (hshows.general 8).trans hzero⟩

end MipsEngines
