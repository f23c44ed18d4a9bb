import MipsEngines.Proofs.BlockRun

/-!
# `MipsEngines.Proofs.UnrolledLoop`: the unrolled loop on any array of ops

The loop of `interpreter_blocked` is entered in its middle, at a case label that the size of
the block selects, and it ends on a sentinel and not on a count. `unrolled_once` says that
for any ops before the sentinel the two fit together: every op is called once, in order,
whatever the number of ops leaves when it is divided by eight.
-/

set_option autoImplicit false

namespace MipsEngines

open Lib StepMachine

/-! ### The machines between the calls -/

/-- The machine after the first `k` words of a code, `s` if they fail. -/
def machineAfter (host : Host) (code : Code) (s : Machine) (k : Nat) : Machine :=
  match runCode host (code.take k) s with
  | .ok t => t
  | .error _ => s

theorem runCode_append (host : Host) (code code' : Code) (s : Machine) :
    runCode host (code ++ code') s = runCode host code s >>= runCode host code' := by
  unfold runCode
  rw [List.foldlM_append]

section MachineAfter

variable {host : Host} {code : Code} {s t : Machine}

/-- The first words of a code that succeeds do so. -/
theorem runCode_take {n : Nat} (h : runCode host (code.take n) s = .ok t) {k : Nat} (hk : k ≤ n) :
    runCode host (code.take k) s = .ok (machineAfter host code s k) := by
  have hfirst : (code.take n).take k = code.take k := by rw [List.take_take, Nat.min_eq_left hk]
  have hsplit : code.take n = code.take k ++ (code.take n).drop k := by
    rw [← hfirst, List.take_append_drop]
  rw [hsplit, runCode_append] at h
  obtain ⟨u, hu, -⟩ := bind_eq_ok.mp h
  unfold machineAfter
  rw [hu]

/-- Each word takes the machine before it to the machine after it. -/
theorem execute_machineAfter {n : Nat} (h : runCode host (code.take n) s = .ok t) {k : Nat}
    {w : U32 × Instr} (hk : k < n) (hw : code[k]? = some w) :
    execute host w.2 w.1 (machineAfter host code s k) = .ok (machineAfter host code s (k + 1)) := by
  have hnext := runCode_take h (show k + 1 ≤ n by omega)
  rw [List.take_add_one, hw, runCode_append, runCode_take h (Nat.le_of_lt hk), ok_bind] at hnext
  rw [Option.toList_some, runCode_cons] at hnext
  obtain ⟨u, hu, hnil⟩ := bind_eq_ok.mp hnext
  cases hnil
  exact hu

/-- A code that fails does so in one of its words. -/
theorem runCode_error {e : Fault} (h : runCode host code s = .error e) :
    ∃ k w t, code[k]? = some w ∧ runCode host (code.take k) s = .ok t ∧
      execute host w.2 w.1 t = .error e := by
  induction code generalizing s with
  | nil => cases h
  | cons w code ih =>
      rw [runCode_cons] at h
      rcases bind_eq_error.mp h with hw | ⟨u, hu, h⟩
      · exact ⟨0, w, s, rfl, rfl, hw⟩
      · obtain ⟨k, v, t, hv, ht, he⟩ := ih h
        refine ⟨k + 1, v, t, hv, ?_, he⟩
        rw [List.take_succ_cons, runCode_cons, hu]
        exact ht

end MachineAfter

/-! ### The loop -/

/-- What a stretch of the loop from op 0 on called and read. -/
theorem Calls.from_zero {ws : List BlockedState} {current n : Nat} {u : Nat → Machine}
    (h : Calls ws current 0 ((List.range n).map u)) :
    opCalls ws = (List.range n).map (fun k => (current, k)) ∧ ∀ k ∈ opReads ws, k ≤ n := by
  have hcalls := h.calls
  have hreads := h.reads
  rw [List.length_map, List.length_range, ← List.range_eq_range'] at hcalls
  rw [List.length_map, List.length_range, Nat.zero_add] at hreads
  exact ⟨hcalls, hreads⟩

/-- A block with any number of ops before its terminator, from the head of the inner loop. If
their handlers return, each is called once, in order, and the block is left. If one fails, the
engine fails in it, with the ones before it called once, in order. No op after the terminator
is read. -/
theorem unrolled_once (host : Host) (blocks : List Block) (previous : Option Nat) (current : Nat)
    (b : Block) (code : Code) (s : Machine) (hb : blocks[current]? = some b)
    (hcode : b.Terminated code) (hpos : 1 ≤ code.length) :
    (∀ t, runCode host code (preIncrement b s) = .ok t →
      ∃ ws, (interpreterBlocked host).Run ws ⟨.inner current, blocks, previous, s⟩
          ⟨.leave current, blocks, previous, t⟩ ∧
        opCalls ws = (List.range code.length).map (fun k => (current, k)) ∧
        ∀ k ∈ opReads ws, k ≤ code.length) ∧
    (∀ e, runCode host code (preIncrement b s) = .error e →
      ∃ k t ws case, k < code.length ∧
        (interpreterBlocked host).Run ws ⟨.inner current, blocks, previous, s⟩
          ⟨.unrolled current k case, blocks, previous, t⟩ ∧
        opCalls ws = (List.range k).map (fun j => (current, j)) ∧
        (∀ j ∈ opReads ws, j ≤ code.length) ∧
        (interpreterBlocked host).step ⟨.unrolled current k case, blocks, previous, t⟩
          = .error e) := by
  have hentry : machineAfter host code (preIncrement b s) 0 = preIncrement b s := rfl
  constructor
  · intro t ht
    rw [← List.take_length (l := code)] at ht
    -- The machine at call `k` is what the first `k` words lead to.
    obtain ⟨ws, hrun, hcalls, -⟩ := block_run previous hb hcode hpos hentry fun k w hw =>
      execute_machineAfter ht (List.getElem?_eq_some_iff.mp hw).1 hw
    have hend := runCode_take ht (Nat.le_refl _)
    rw [ht] at hend
    rw [← Except.ok.inj hend] at hrun
    exact ⟨ws, hrun, hcalls.from_zero⟩
  · intro e he
    obtain ⟨k, w, t, hw, ht, hfault⟩ := runCode_error he
    have hk : k < code.length := (List.getElem?_eq_some_iff.mp hw).1
    -- The loop gets to the word that fails, and its handler is the step that fails.
    obtain ⟨ws, case, hrun, hcalls, -⟩ := block_run_to previous hb hcode hentry hk
      fun j v hj hv => execute_machineAfter ht hj hv
    have hend := runCode_take ht (Nat.le_refl k)
    rw [ht] at hend
    rw [← Except.ok.inj hend] at hrun
    obtain ⟨hops, hreads⟩ := hcalls.from_zero
    refine ⟨k, t, ws, case, hk, hrun, hops, fun j hj => ?_, ?_⟩
    · exact Nat.le_trans (hreads j hj) (Nat.le_of_lt hk)
    · have hstep := blockedStep_unrolled host previous t case hb (hcode.op_lt hw)
      rw [hfault] at hstep
      exact hstep

/-- A block that adds 1 to `$t0` eleven times. -/
abbrev elevenOps : Block :=
  ⟨0, 12, List.replicate 11 ⟨0x25080001, some .addiu⟩ ++ [⟨0, none⟩], false, fun _ => none⟩

/-- The loop is entered in the middle and goes round once more. -/
theorem unrolled_once_elevenOps :
    ∃ t ws, (interpreterBlocked failingHost).Run ws
        ⟨.inner 0, [elevenOps], none, program 0 []⟩ ⟨.leave 0, [elevenOps], none, t⟩ ∧
      opCalls ws = (List.range 11).map (fun k => (0, k)) ∧ t.reg MIPS_R_T0 = 11 := by
  obtain ⟨t, ht, hadded⟩ := okWith_eq_true.mp (show okWith (fun t => t.reg MIPS_R_T0 == 11)
    (runCode failingHost (List.replicate 11 (0x25080001, .addiu))
      (preIncrement elevenOps (program 0 []))) = true by decide +kernel)
  obtain ⟨ws, hrun, hcalls, -⟩ := (unrolled_once failingHost [elevenOps] none 0 elevenOps
    (List.replicate 11 (0x25080001, .addiu)) (program 0 []) rfl ⟨rfl, 0, rfl⟩ (by decide)).1 t ht
  exact ⟨t, ws, hrun, hcalls, eq_of_beq hadded⟩

end MipsEngines
