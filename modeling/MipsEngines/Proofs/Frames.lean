import MipsEngines.Model.Instructions
import MipsEngines.Proofs.BulkCopies

/-!
# `MipsEngines.Proofs.Frames`: what handlers leave alone

No system call stores to a register other than `V0`, `A0` and `A3` (`itpSyscallImpl_reg`), only
the two exits halt the machine (`itpSyscallImpl_regFrame`), and only `brk` and `mmap2` do more to
the memory than store over mapped bytes (`itpSyscallImpl_stored`), so no other call moves a mark.
No other handler halts the machine, and what it does to the memory are stores
(`execute_stored`, `execute_frame`), or nothing (`execute_memory`).
-/

set_option autoImplicit false

namespace MipsEngines

open Lib

/-! ### System calls -/

/-- What every system call but the exits leaves alone. -/
structure RegFrame (s t : Machine) : Prop where
  reg : ∀ r, r ≠ MIPS_R_V0 → r ≠ MIPS_R_A0 → r ≠ MIPS_R_A3 → t.reg r = s.reg r
  halted : t.mips.halted = s.mips.halted

/-- What every system call but these, `brk` and `mmap2` does to the memory: it stores over mapped
bytes. -/
structure StoreFrame (s t : Machine) : Prop extends RegFrame s t where
  branched : t.mips.branched = s.mips.branched
  stored : Stored s.memory t.memory

/-- A store elsewhere. -/
theorem reg_setReg_of_ne {r i : Reg} (h : r ≠ i) (s : Machine) (v : U32) :
    (s.setReg i v).reg r = s.reg r := if_neg h

namespace StoreFrame

variable {s t u : Machine}

theorem refl (s : Machine) : StoreFrame s s := ⟨⟨fun _ _ _ _ => rfl, rfl⟩, rfl, .refl⟩

theorem trans (h : StoreFrame s t) (h' : StoreFrame t u) : StoreFrame s u where
  reg r hv0 ha0 ha3 := (h'.reg r hv0 ha0 ha3).trans (h.reg r hv0 ha0 ha3)
  halted := h'.halted.trans h.halted
  branched := h'.branched.trans h.branched
  stored := h.stored.trans h'.stored

theorem setV0 (s : Machine) (v : U32) : StoreFrame s (s.setReg MIPS_R_V0 v) :=
  ⟨⟨fun _ hv0 _ _ => reg_setReg_of_ne hv0 s v, rfl⟩, rfl, .refl⟩

theorem setA0 (s : Machine) (v : U32) : StoreFrame s (s.setReg MIPS_R_A0 v) :=
  ⟨⟨fun _ _ ha0 _ => reg_setReg_of_ne ha0 s v, rfl⟩, rfl, .refl⟩

theorem setA3 (s : Machine) (v : U32) : StoreFrame s (s.setReg MIPS_R_A3 v) :=
  ⟨⟨fun _ _ _ ha3 => reg_setReg_of_ne ha3 s v, rfl⟩, rfl, .refl⟩

theorem setMemory {memory : Memory} (h : Stored s.memory memory) :
    StoreFrame s (s.setMemory memory) :=
  ⟨⟨fun _ _ _ _ => rfl, rfl⟩, rfl, h⟩

theorem call (host : Host) (c : HostCall) (s : Machine) : StoreFrame s (s.call host c).2 :=
  ⟨⟨fun _ _ _ _ => rfl, rfl⟩, rfl, .refl⟩

end StoreFrame

/-- Where `f` succeeds, it stays in the frame. -/
def Stores (f : Machine → Except Fault Machine) : Prop := ∀ s t, f s = .ok t → StoreFrame s t

theorem Stores.of_ok {g : Machine → Machine} (h : ∀ s, StoreFrame s (g s)) :
    Stores fun s => .ok (g s) := by
  intro s t ht
  cases ht
  exact h s

theorem Stores.ite {c : Prop} [Decidable c] {f g : Machine → Except Fault Machine}
    (hf : c → Stores f) (hg : Stores g) : Stores fun s => if c then f s else g s := by
  intro s t ht
  by_cases h : c
  · exact hf h s t (by simpa only [if_pos h] using ht)
  · exact hg s t (by simpa only [if_neg h] using ht)

section Syscalls

variable {host : Host}

theorem mipsSyscallRead_stores (fd address size : U32) :
    Stores fun s => mipsSyscallRead host s fd address size := by
  intro s t h
  obtain ⟨memory, hcopy, h⟩ := bind_eq_ok.mp h
  cases h
  have hcall := StoreFrame.call host (.read fd size) s
  exact (hcall.trans (.setV0 _ _)).trans (.setMemory (copyWriteLoop_stored hcopy))

theorem mipsSyscallWrite_stores (fd address size : U32) :
    Stores fun s => mipsSyscallWrite host s fd address size := by
  intro s t h
  obtain ⟨buffer, -, h⟩ := bind_eq_ok.mp h
  cases h
  exact (StoreFrame.call host _ s).trans (.setV0 _ _)

theorem mipsSyscallOpen_stores (name flags mode : U32) :
    Stores fun s => mipsSyscallOpen host s name flags mode := by
  intro s t h
  obtain ⟨size, -, h⟩ := bind_eq_ok.mp h
  obtain ⟨buffer, -, h⟩ := bind_eq_ok.mp h
  by_cases hterm : 0 ∈ buffer
  · rw [if_pos hterm] at h
    cases h
    exact (StoreFrame.call host _ s).trans (.setV0 _ _)
  · rw [if_neg hterm] at h
    cases h

theorem mipsSyscallClose_stores (fd : U32) : Stores fun s => .ok (mipsSyscallClose host s fd) :=
  .of_ok fun s => (StoreFrame.call host (.close fd) s).trans (.setV0 _ _)

theorem mipsSyscallLseek_stores (fd offset whence : U32) :
    Stores fun s => .ok (mipsSyscallLseek host s fd offset whence) :=
  .of_ok fun s => (StoreFrame.call host (.lseek fd offset whence) s).trans (.setV0 _ _)

/-- Four stores in a row, of the two structures that calls fill in. -/
theorem StoreFrame.four_stores {s : Machine} {m₁ m₂ m₃ m₄ : Memory} {a₁ a₂ a₃ a₄ : U32}
    {n : Nat} {b₁ b₂ b₃ b₄ : Nat → U8} (h₁ : memoryStore s.memory a₁ n b₁ = .ok m₁)
    (h₂ : memoryStore m₁ a₂ n b₂ = .ok m₂) (h₃ : memoryStore m₂ a₃ n b₃ = .ok m₃)
    (h₄ : memoryStore m₃ a₄ n b₄ = .ok m₄) : StoreFrame s (s.setMemory m₄) := by
  have hfirst := (Stored.store h₁).trans (Stored.store h₂)
  have hsecond := (Stored.store h₃).trans (Stored.store h₄)
  exact .setMemory (hfirst.trans hsecond)

theorem mipsSyscallIoctl_stores (fd request argp : U32) :
    Stores fun s => mipsSyscallIoctl host s fd request argp := by
  intro s t h
  have hcall := StoreFrame.call host (.ioctl fd) s
  simp only [mipsSyscallIoctl] at h
  split_ifs at h
  cases hreply : (s.call host (.ioctl fd)).1 with
  | none =>
      simp only [hreply] at h
      cases h
      exact hcall.trans (.setV0 _ _)
  | some ws =>
      simp only [hreply] at h
      obtain ⟨m₁, h₁, h⟩ := bind_eq_ok.mp h
      obtain ⟨m₂, h₂, h⟩ := bind_eq_ok.mp h
      obtain ⟨m₃, h₃, h⟩ := bind_eq_ok.mp h
      obtain ⟨m₄, h₄, h⟩ := bind_eq_ok.mp h
      have hstored := hcall.trans (.four_stores h₁ h₂ h₃ h₄)
      cases h
      exact hstored.trans (.setV0 _ _)

theorem writevLoop_stores {fd ptr : U32} {cnt : Nat} :
    ∀ {c total : U32} {s : Machine} {result : U32 × Machine},
      writevLoop host fd ptr cnt c total s = .ok result → StoreFrame s result.2 := by
  induction cnt with
  | zero =>
      intro c total s result h
      cases h
      exact .refl s
  | succ cnt ih =>
      intro c total s result h
      obtain ⟨address, -, h⟩ := bind_eq_ok.mp h
      obtain ⟨length, -, h⟩ := bind_eq_ok.mp h
      split_ifs at h
      · exact ih h
      · obtain ⟨buffer, -, h⟩ := bind_eq_ok.mp h
        exact (StoreFrame.call host (.write fd buffer) s).trans (ih h)

theorem mipsSyscallWritev_stores (fd ptr cnt : U32) :
    Stores fun s => mipsSyscallWritev host s fd ptr cnt := by
  intro s t h
  obtain ⟨result, hloop, h⟩ := bind_eq_ok.mp h
  cases h
  exact (writevLoop_stores hloop).trans (.setV0 _ _)

theorem mipsSyscallMunmap_stores : Stores fun s => .ok (mipsSyscallMunmap s) :=
  .of_ok fun s => (StoreFrame.setV0 s 0).trans (.setA0 _ 0)

theorem mipsSyscallMprotect_stores : Stores fun s => .ok (mipsSyscallMprotect s) :=
  .of_ok fun s => (StoreFrame.setV0 s 0).trans (.setA3 _ 0)

theorem mipsSyscallClockGettime64_stores (clockId timespecPtr : U32) :
    Stores fun s => mipsSyscallClockGettime64 host s clockId timespecPtr := by
  intro s t h
  have hstart := (StoreFrame.setV0 s 22).trans (.setA3 _ 1)
  -- The registers of the error, the call, and on success the stores over them.
  have hcall := hstart.trans (.call host (.clockGettime clockId) _)
  simp only [mipsSyscallClockGettime64] at h
  cases hreply : (((s.setReg MIPS_R_V0 22).setReg MIPS_R_A3 1).call host
      (.clockGettime clockId)).1 with
  | none =>
      simp only [hreply] at h
      cases h
      exact hcall
  | some ts =>
      simp only [hreply] at h
      obtain ⟨m₁, h₁, h⟩ := bind_eq_ok.mp h
      obtain ⟨m₂, h₂, h⟩ := bind_eq_ok.mp h
      obtain ⟨m₃, h₃, h⟩ := bind_eq_ok.mp h
      obtain ⟨m₄, h₄, h⟩ := bind_eq_ok.mp h
      have hstored := hcall.trans (.four_stores h₁ h₂ h₃ h₄)
      cases h
      exact (hstored.trans (.setV0 _ _)).trans (.setA3 _ _)

theorem mipsSyscallSetThreadArea_stores (addr : U32) :
    Stores fun s => .ok (mipsSyscallSetThreadArea s addr) := by
  refine .of_ok fun s => StoreFrame.trans ?_ (.setV0 _ 0)
  exact ⟨⟨fun _ _ _ _ => rfl, rfl⟩, rfl, .refl⟩

theorem mipsSyscallTidAddr_stores (tidptr : U32) :
    Stores fun s => .ok (mipsSyscallTidAddr s tidptr) := by
  refine .of_ok fun s => StoreFrame.trans ?_ (.setV0 _ 1)
  exact ⟨⟨fun _ _ _ _ => rfl, rfl⟩, rfl, .refl⟩

/-- The two calls that halt. -/
def IsExit (v0 : U32) : Prop := v0 = NR_exit ∨ v0 = NR_exit_group

theorem itpSyscallImpl_exit {v0 : U32} (hexit : IsExit v0) (a0 a1 a2 : U32) (s : Machine) :
    itpSyscallImpl host v0 a0 a1 a2 s = .ok (mipsSyscallExit s a0) := by
  rcases hexit with rfl | rfl
  · rfl
  · rfl

/-- Every other call but `brk` and `mmap2`. -/
theorem itpSyscallImpl_stores {v0 : U32} (hexit : ¬ IsExit v0) (hbrk : v0 ≠ NR_brk)
    (hmmap : v0 ≠ NR_mmap2) (a0 a1 a2 : U32) : Stores (itpSyscallImpl host v0 a0 a1 a2) :=
  .ite (fun h => absurd (.inl h) hexit) <|
  .ite (fun _ => mipsSyscallRead_stores a0 a1 a2) <|
  .ite (fun _ => mipsSyscallWrite_stores a0 a1 a2) <|
  .ite (fun _ => mipsSyscallOpen_stores a0 a1 a2) <|
  .ite (fun _ => mipsSyscallClose_stores a0) <|
  .ite (fun _ => mipsSyscallLseek_stores a0 a1 a2) <|
  .ite (fun _ => mipsSyscallIoctl_stores a0 a1 a2) <|
  .ite (fun _ => mipsSyscallWritev_stores a0 a1 a2) <|
  .ite (fun h => absurd h hbrk) <|
  .ite (fun h => absurd h hmmap) <|
  .ite (fun _ => mipsSyscallMunmap_stores) <|
  .ite (fun _ => mipsSyscallMprotect_stores) <|
  .ite (fun _ => mipsSyscallClockGettime64_stores a0 a1) <|
  .ite (fun h => absurd (.inr h) hexit) <|
  .ite (fun _ => mipsSyscallTidAddr_stores a0) <|
  .ite (fun _ => mipsSyscallSetThreadArea_stores a0) fun _ _ h => by cases h

/-- The exits leave the memory alone. -/
theorem itpSyscallImpl_stored {v0 a0 a1 a2 : U32} {s t : Machine} (hbrk : v0 ≠ NR_brk)
    (hmmap : v0 ≠ NR_mmap2) (h : itpSyscallImpl host v0 a0 a1 a2 s = .ok t) :
    Stored s.memory t.memory := by
  by_cases hexit : IsExit v0
  · rw [itpSyscallImpl_exit hexit] at h
    cases h
    exact .refl
  · exact (itpSyscallImpl_stores hexit hbrk hmmap a0 a1 a2 s t h).stored

theorem itpSyscallImpl_brk (a0 a1 a2 : U32) (s : Machine) :
    itpSyscallImpl host NR_brk a0 a1 a2 s = .ok (mipsSyscallBrk s a0) := by
  unfold itpSyscallImpl
  -- The numbers compared before it.
  iterate 8 rw [if_neg (by decide)]
  exact if_pos rfl

theorem itpSyscallImpl_mmap2 (a0 a1 a2 : U32) (s : Machine) :
    itpSyscallImpl host NR_mmap2 a0 a1 a2 s = mipsSyscallMmap2 s a1 := by
  unfold itpSyscallImpl
  iterate 9 rw [if_neg (by decide)]
  exact if_pos rfl

theorem mipsSyscallBrk_regFrame (s : Machine) (brk : U32) : RegFrame s (mipsSyscallBrk s brk) where
  reg _ hv0 _ _ := reg_setReg_of_ne hv0 _ _
  halted := rfl

theorem mipsSyscallMmap2_regFrame {s t : Machine} {len : U32} (h : mipsSyscallMmap2 s len = .ok t) :
    RegFrame s t := by
  simp only [mipsSyscallMmap2] at h
  obtain ⟨fd, -, h⟩ := bind_eq_ok.mp h
  obtain ⟨pgoff, -, h⟩ := bind_eq_ok.mp h
  split_ifs at h
  obtain ⟨memory, -, h⟩ := bind_eq_ok.mp h
  cases h
  constructor
  case reg =>
    intro r hv0 _ ha3
    rw [reg_setReg_of_ne ha3, reg_setReg_of_ne hv0]
    rfl
  case halted => rfl

/-- Every call but the exits. -/
theorem itpSyscallImpl_regFrame {v0 a0 a1 a2 : U32} {s t : Machine} (hexit : ¬ IsExit v0)
    (h : itpSyscallImpl host v0 a0 a1 a2 s = .ok t) : RegFrame s t := by
  by_cases hbrk : v0 = NR_brk
  · rw [hbrk, itpSyscallImpl_brk] at h
    cases h
    exact mipsSyscallBrk_regFrame s a0
  · by_cases hmmap : v0 = NR_mmap2
    · rw [hmmap, itpSyscallImpl_mmap2] at h
      exact mipsSyscallMmap2_regFrame h
    · exact (itpSyscallImpl_stores hexit hbrk hmmap a0 a1 a2 s t h).toRegFrame

/-- Every call. -/
theorem itpSyscallImpl_reg {v0 a0 a1 a2 : U32} {s t : Machine}
    (h : itpSyscallImpl host v0 a0 a1 a2 s = .ok t) {r : Reg} (hv0 : r ≠ MIPS_R_V0)
    (ha0 : r ≠ MIPS_R_A0) (ha3 : r ≠ MIPS_R_A3) : t.reg r = s.reg r := by
  by_cases hexit : IsExit v0
  · rw [itpSyscallImpl_exit hexit] at h
    cases h
    rfl
  · exact (itpSyscallImpl_regFrame hexit h).reg r hv0 ha0 ha3

end Syscalls

/-! ### Other handlers -/

/-- The store implementations are stores. -/
theorem storeImm_stored {i : Instr} {impl : Memory → (address valueRt : U32) → Except Fault Memory}
    (hi : i.template = .storeImm impl) {memory memory' : Memory} {address valueRt : U32}
    (h : impl memory address valueRt = .ok memory') : Stored memory memory' := by
  cases i with
  | sb | sh | swl | sw | swr =>
      cases hi
      exact Stored.store h
  | _ => cases hi

/-- A branch changes the pipe only. -/
theorem branchOn_memory (cir : U32) (s : Machine) (taken : Bool) :
    (branchOn cir s taken).mips.halted = s.mips.halted ∧
      (branchOn cir s taken).memory = s.memory := by
  cases taken <;> exact ⟨rfl, rfl⟩

/-- The instructions whose handlers store nothing: all but stores and system calls. -/
def Instr.leavesMemory (i : Instr) : Bool :=
  match i.template with
  | .storeImm _ | .sc | .syscall => false
  | _ => true

/-- They leave memory alone. -/
theorem execute_memory {host : Host} {i : Instr} (hi : i.leavesMemory = true) {cir : U32}
    {s t : Machine} (h : execute host i cir s = .ok t) :
    t.mips.halted = s.mips.halted ∧ t.memory = s.memory := by
  unfold Instr.leavesMemory at hi
  unfold execute at h
  cases htemplate : i.template with
  | storeImm impl => rw [htemplate] at hi; cases hi
  | sc => rw [htemplate] at hi; cases hi
  | syscall => rw [htemplate] at hi; cases hi
  | brk => rw [htemplate] at h; cases h
  | loadImm impl =>
      rw [htemplate] at h
      obtain ⟨v, -, h⟩ := bind_eq_ok.mp h
      cases h
      exact ⟨rfl, rfl⟩
  | aluReg impl =>
      rw [htemplate] at h
      cases h
      unfold typeAluReg
      split <;> exact ⟨rfl, rfl⟩
  | aluImm impl =>
      rw [htemplate] at h
      cases h
      unfold typeAluImm
      split <;> exact ⟨rfl, rfl⟩
  | branchGeneric link cond =>
      rw [htemplate] at h
      cases h
      cases link <;> exact branchOn_memory cir _ _
  | branchEqNe cond =>
      rw [htemplate] at h
      cases h
      exact branchOn_memory cir _ _
  | jJal link =>
      rw [htemplate] at h
      cases h
      unfold typeJJal
      split_ifs <;> exact ⟨rfl, rfl⟩
  | _ =>
      rw [htemplate] at h
      cases h
      exact ⟨rfl, rfl⟩

/-- A handler other than that of `SYSCALL`. -/
theorem execute_stored {host : Host} {i : Instr} (hi : i ≠ .syscall) {cir : U32} {s t : Machine}
    (h : execute host i cir s = .ok t) :
    t.mips.halted = s.mips.halted ∧ Stored s.memory t.memory := by
  have hstore : ∀ impl, i.template = .storeImm impl → ∀ memory',
      impl s.memory (computeAddress cir s) (s.reg (rt cir)) = .ok memory' →
      Stored s.memory memory' := fun impl himpl memory' h => storeImm_stored himpl h
  -- The template alone does not say which instruction it is the template of.
  have hsyscall : i.template ≠ .syscall := by
    intro htemplate
    cases i with
    | syscall => exact hi rfl
    | _ => cases htemplate
  by_cases hleaves : i.leavesMemory = true
  · obtain ⟨hhalted, hmemory⟩ := execute_memory hleaves h
    exact ⟨hhalted, hmemory ▸ .refl⟩
  · unfold Instr.leavesMemory at hleaves
    unfold execute at h
    cases htemplate : i.template with
    | syscall => exact absurd htemplate hsyscall
    | storeImm impl =>
        rw [htemplate] at h
        obtain ⟨memory', himpl, h⟩ := bind_eq_ok.mp h
        cases h
        exact ⟨rfl, hstore impl htemplate memory' himpl⟩
    | sc =>
        rw [htemplate] at h
        obtain ⟨s₁, hs₁, h⟩ := bind_eq_ok.mp h
        obtain ⟨memory', himpl, hs₁⟩ := bind_eq_ok.mp hs₁
        cases hs₁
        cases h
        exact ⟨rfl, Stored.store himpl⟩
    | _ =>
        rw [htemplate] at hleaves
        exact absurd rfl hleaves

theorem execute_frame {host : Host} {i : Instr} (hi : i ≠ .syscall) {cir : U32} {s t : Machine}
    (h : execute host i cir s = .ok t) :
    t.mips.halted = s.mips.halted ∧ SameMarks s.memory t.memory :=
  ⟨(execute_stored hi h).1, (execute_stored hi h).2.sameMarks⟩

/-- No handler but that of an exit call halts the machine, or takes back a halt. -/
theorem execute_running {host : Host} {i : Instr} {cir : U32} {s t : Machine}
    (h : execute host i cir s = .ok t) (hexit : i = .syscall → ¬ IsExit (s.reg MIPS_R_V0)) :
    t.mips.halted = s.mips.halted := by
  by_cases hi : i = .syscall
  · subst hi
    exact (itpSyscallImpl_regFrame (hexit rfl) h).halted
  · exact (execute_frame hi h).1

/-- And that one does not either. -/
theorem execute_halted {host : Host} {i : Instr} {cir : U32} {s t : Machine}
    (h : execute host i cir s = .ok t) (hs : s.mips.halted = true) : t.mips.halted = true := by
  by_cases hexit : i = .syscall ∧ IsExit (s.reg MIPS_R_V0)
  · obtain ⟨rfl, hv0⟩ := hexit
    have hrun : execute host .syscall cir s = .ok _ := itpSyscallImpl_exit hv0 _ _ _ s
    cases hrun.symm.trans h
    rfl
  · rw [execute_running h fun hi hv0 => hexit ⟨hi, hv0⟩, hs]

end MipsEngines
