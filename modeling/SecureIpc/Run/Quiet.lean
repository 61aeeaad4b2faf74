import SecureIpc.Run.Delivery
import SecureIpc.Run.Trace

/-! System calls of a task with no signal pending: the call returns to the program right away. -/

namespace SecureIpc
open Lib

section
variable {P : Platform} {k : Kernel P} {s : System P} {id : Nat} {task : TaskControlBlock}

structure TaskControlBlock.Quiet (task : TaskControlBlock) : Prop where
  signals : task.signals = 0
  running : task.frozen = false

theorem TaskControlBlock.Quiet.scan (quiet : task.Quiet) (count sig : Nat) : task.scan count sig = (task, none) := by
  induction count generalizing sig with
  | zero => rfl
  | succ count ih =>
    have none : task.delivers sig = false := by
      unfold TaskControlBlock.delivers
      rw [quiet.signals]
      simp
    rw [TaskControlBlock.scan_quiet none]
    exact ih (sig + 1)

theorem trapTail_quiet {Q : Unit → Kernel P → Prop} {E : Halt → Prop} (current : k.current = some id)
    (found : k.tasks id = some task) (formed : task.SignalsFormed) (quiet : task.Quiet) (next : Q () k) : wp trapTail Q E k := by
  have same : k.setTask id task = k := setTask_same_task found
  unfold trapTail
  rw [wp_bind]
  have handled : wp handleSignals (fun left k' => left = true ∧ k' = k) E k := by
    unfold handleSignals
    rw [wp_bind]
    show wp (checkPendingSignalsFrom 32 0) _ E k
    refine checkPendingSignalsFrom_rule current found formed (Nat.le_refl 32) (fun _ => ?_) fun user caught => ?_
    · rw [quiet.scan, same]
      simp only [wp_bind, wp_currentTask, current, wp_innerOf, found, quiet.running, Bool.not_false, Bool.true_or, if_true, wp_pure, and_self]
    · rw [quiet.scan] at caught
      cases caught
  refine wp_mono handled ?_ fun _ stops => stops
  intro left k' both
  obtain ⟨leaves, unchanged⟩ := both
  subst leaves unchanged
  have harmless : SignalFlags.checkError 0 = none := by decide
  simp only [if_true, wp_bind, checkSignalsErrorOfCurrent, wp_currentTask, current, wp_innerOf, found, wp_pure, quiet.signals,
    harmless]
  exact next

/-! ### The registers of a trap -/

theorem wordAddr_apart {ppn word other : Nat} (different : word ≠ other) :
    TrapContext.wordAddr ppn other + 8 ≤ TrapContext.wordAddr ppn word ∨
      TrapContext.wordAddr ppn word + 8 ≤ TrapContext.wordAddr ppn other := by
  unfold TrapContext.wordAddr
  omega

theorem readWord_setWord {mem : PhysMem} {ppn word other : Nat} (value : Nat) :
    (mem.writeWord (TrapContext.wordAddr ppn word) value).readWord (TrapContext.wordAddr ppn other) =
      if other = word then value % 2 ^ 64 else mem.readWord (TrapContext.wordAddr ppn other) := by
  by_cases same : other = word
  · rw [if_pos same, same, Memory.readWord_writeWord_same]
  · rw [if_neg same, Memory.readWord_writeWord_other (wordAddr_apart (Ne.symm same))]

theorem readWord_foldl {mem : PhysMem} {ppn n : Nat} (numbers x : List Nat) :
    (numbers.foldl (fun mem n => mem.writeWord (TrapContext.wordAddr ppn n) (x.getD n 0)) mem).readWord
      (TrapContext.wordAddr ppn n) =
        if n ∈ numbers then x.getD n 0 % 2 ^ 64 else mem.readWord (TrapContext.wordAddr ppn n) := by
  induction numbers generalizing mem with
  | nil => rfl
  | cons m rest ih =>
    rw [List.foldl_cons, ih, readWord_setWord]
    by_cases later : n ∈ rest
    · rw [if_pos later, if_pos (List.mem_cons_of_mem m later)]
    · by_cases here : n = m
      · rw [if_neg later, if_pos here, if_pos (here ▸ List.mem_cons_self), here]
      · rw [if_neg later, if_neg here, if_neg fun member => (List.mem_cons.mp member).elim here later]

theorem readWord_save {mem : PhysMem} {ppn n sstatus sepc : Nat} {x : List Nat} (saved : n < 32) (notZero : n ≠ 0)
    (notTp : n ≠ 4) :
    (TrapContext.save ppn x sstatus sepc mem).readWord (TrapContext.wordAddr ppn n) = x.getD n 0 % 2 ^ 64 := by
  have number : n ∈ (List.range 32).filter fun n => n != 0 && n != 4 := by
    simp [saved, notZero, notTp]
  have status : n ≠ TrapContext.sstatusWord := Nat.ne_of_lt saved
  have counter : n ≠ TrapContext.sepcWord := Nat.ne_of_lt (Nat.lt_succ_of_lt saved)
  unfold TrapContext.save
  dsimp only
  rw [readWord_setWord, if_neg counter, readWord_setWord, if_neg status, readWord_foldl, if_pos number]

/-! ### Steps -/

/-- A system call starts when `sepc` has been moved behind the instruction. -/
theorem handleSyscall_rule {Q : Unit → System P → Prop} {E : Halt → Prop} (current : s.kernel.current = some id)
    (found : s.kernel.tasks id = some task) (n a0 a1 a2 : Nat)
    (registers : ∀ m value, (m, value) ∈ [(17, n), (10, a0), (11, a1), (12, a2)] →
      s.kernel.mm.mem.readWord (TrapContext.wordAddr task.trapCxPpn m) = value)
    (called : ∀ mem, s.kernel.Within [task.trapCxPpn] mem →
      wp (syscall n (a0, a1, a2)) (fun r s' => wp (finishSyscall r) Q E s') E
        { s with kernel := (s.kernel.setMem mem).observe (.entered (entryOf task n (a0, a1, a2))) }) :
    wp handleSyscall Q E s := by
  simp only [handleSyscall, wp_bind, wp_kernel, wp_currentTask, current]
  rw [wp_trapCxWord found, wp_setTrapCxWord found]
  generalize (s.kernel.mm.mem.readWord (TrapContext.wordAddr task.trapCxPpn TrapContext.sepcWord) + 4) % 2 ^ 64 = next
  have kept : ∀ m value, (m, value) ∈ [(17, n), (10, a0), (11, a1), (12, a2)] →
      (s.kernel.mm.mem.writeWord (TrapContext.wordAddr task.trapCxPpn TrapContext.sepcWord) next).readWord
        (TrapContext.wordAddr task.trapCxPpn m) = value := by
    intro m value member
    rw [readWord_setWord, if_neg, registers m value member]
    simp only [List.mem_cons, Prod.mk.injEq, List.not_mem_nil, or_false] at member
    unfold TrapContext.sepcWord
    omega
  have within : s.kernel.Within [task.trapCxPpn] (s.kernel.mm.mem.writeWord
      (TrapContext.wordAddr task.trapCxPpn TrapContext.sepcWord) next) := wordAddr_within (show TrapContext.sepcWord < 512 by decide)
  generalize s.kernel.mm.mem.writeWord (TrapContext.wordAddr task.trapCxPpn TrapContext.sepcWord) next = mem at kept within
  have found₁ : (s.kernel.setMem mem).tasks id = some task := found
  have memory : (s.kernel.setMem mem).mm.mem = mem := rfl
  rw [wp_trapCxWord found₁, wp_trapCxWord found₁, wp_trapCxWord found₁, wp_trapCxWord found₁, memory, kept 17 n (by simp),
    kept 10 a0 (by simp), kept 11 a1 (by simp), kept 12 a2 (by simp), wp_innerOf, found₁]
  dsimp only
  rw [wp_observe]
  exact called mem within

theorem ecall_rule {Q : Unit → System P → Prop} {E : Halt → Prop} (current : s.kernel.current = some id)
    (found : s.kernel.tasks id = some task) {n a0 a1 a2 : Nat}
    (words : n < 2 ^ 64 ∧ a0 < 2 ^ 64 ∧ a1 < 2 ^ 64 ∧ a2 < 2 ^ 64)
    (called : ∀ mem, s.kernel.Within [task.trapCxPpn] mem →
      wp (syscall n (a0, a1, a2)) (fun r s' => wp (finishSyscall r) Q E s') E
        { s with kernel := (({ s.kernel with now := 0, consoleInput := [] }.setMem mem).observe
          (.entered (entryOf task n (a0, a1, a2)))) }) : wp (step (ecall n a0 a1 a2)) Q E s := by
  obtain ⟨x, saved⟩ : ∃ x, x = (((((List.replicate 32 0).set 17 n).set 10 a0).set 11 a1).set 12 a2) := ⟨_, rfl⟩
  let prepared : Kernel P := { s.kernel with now := 0, consoleInput := [] }
  have memory : wp handleSyscall Q E
      { s with kernel := prepared.setMem (TrapContext.save task.trapCxPpn x 0 0x10000 s.kernel.mm.mem) } := by
    refine handleSyscall_rule current found n a0 a1 a2 ?_ fun mem within => ?_
    · intro m value member
      show (TrapContext.save task.trapCxPpn x 0 0x10000 s.kernel.mm.mem).readWord _ = value
      simp only [List.mem_cons, Prod.mk.injEq, List.not_mem_nil, or_false] at member
      rw [readWord_save (by omega) (by omega) (by omega), saved]
      rcases member with ⟨rfl, rfl⟩ | ⟨rfl, rfl⟩ | ⟨rfl, rfl⟩ | ⟨rfl, rfl⟩
      · exact Nat.mod_eq_of_lt words.1
      · exact Nat.mod_eq_of_lt words.2.1
      · exact Nat.mod_eq_of_lt words.2.2.1
      · exact Nat.mod_eq_of_lt words.2.2.2
    · have first : s.kernel.Within [task.trapCxPpn] _ := save_within x 0 0x10000
      exact called mem (first.trans within)
  unfold step ecall
  rw [wp_bind, wp_kernel, wp_read, current]
  dsimp only
  rw [wp_bind, wp_kernel, setEnvironment, wp_modify, wp_bind, wp_kernel, saveTrapCx, wp_bind, wp_innerOf]
  have found₁ : prepared.tasks id = some task := found
  rw [found₁]
  dsimp only
  rw [wp_modify]
  rw [saved] at memory
  exact memory

theorem finishSyscall_quiet {Q : Unit → System P → Prop} {E : Halt → Prop} {value : Int} (current : s.kernel.current = some id)
    (found : s.kernel.tasks id = some task) (formed : task.SignalsFormed) (quiet : task.Quiet)
    (next : ∀ mem, Q () { s with kernel := (s.kernel.setMem mem).observe (.returned value) }) :
    wp (finishSyscall (some value)) Q E s := by
  simp only [finishSyscall, wp_bind, wp_kernel, wp_currentTask, current]
  rw [wp_setTrapCxWord found, wp_observe]
  generalize s.kernel.mm.mem.writeWord (TrapContext.wordAddr task.trapCxPpn 10) (wordOfInt value) = mem
  have current₁ : ((s.kernel.setMem mem).observe (.returned value)).current = some id := current
  have found₁ : ((s.kernel.setMem mem).observe (.returned value)).tasks id = some task := found
  exact trapTail_quiet current₁ found₁ formed quiet (next mem)

end

end SecureIpc
