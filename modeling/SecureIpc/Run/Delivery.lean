import SecureIpc.Run.Does

/-!
The scan of `check_pending_signals` as a function on the control block, and what it leaves behind:
which kernel signals it handles, and the user signal at which it stops.
-/

namespace SecureIpc
open Lib

/-! ### Signals by number -/

theorem contains_bit {flags : SignalFlags} {sig : Nat} (small : sig < 32) :
    SignalFlags.contains flags ((1 <<< sig : Nat) : BitVec 32) = flags.getLsbD sig := by
  unfold SignalFlags.contains
  rw [cast_bit, BitVec.and_twoPow]
  split_ifs with set
  · rw [set]
    exact beq_self_eq_true _
  · rw [Bool.eq_false_iff.mpr set]
    exact beq_eq_false_iff_ne.mpr (twoPow_ne_zero small).symm

/-- `SIGDEF`, `SIGKILL`, `SIGCONT` and `SIGSTOP`. -/
def isKernelNumber (sig : Nat) : Bool := sig == 0 || sig == 9 || sig == 18 || sig == 19

theorem isKernelSignal_bit : ∀ sig < 32, isKernelSignal ((1 <<< sig : Nat) : BitVec 32) = isKernelNumber sig := by
  decide

namespace TaskControlBlock

/-- Signal number `sig` is pending, and neither the mask nor the running handler blocks it. -/
def delivers (self : TaskControlBlock) (sig : Nat) : Bool :=
  self.signals.getLsbD sig && !self.signalMask.getLsbD sig &&
    (self.handlingSig == -1 || !(self.signalActions.getD (wordOfInt self.handlingSig) .default).mask.getLsbD sig)

variable {task after : TaskControlBlock} {sig : Nat}

theorem deliverable_bit (formed : task.SignalsFormed) (small : sig < 32) :
    task.deliverable ((1 <<< sig : Nat) : BitVec 32) = .ok (task.delivers sig) := by
  unfold deliverable delivers
  rw [contains_bit small, contains_bit small]
  cases task.signals.getLsbD sig && !task.signalMask.getLsbD sig with
  | false => rfl
  | true =>
    rcases formed.handling with none | ⟨nonneg, inside⟩
    · simp [none]
    · have different : task.handlingSig ≠ -1 := by omega
      have number : wordOfInt task.handlingSig < task.signalActions.length := by
        rw [formed.actions]
        unfold wordOfInt maxSig at *
        omega
      rw [if_pos rfl, if_neg different, getIndex_ok number]
      simp only [bind, Except.bind, pure, Except.pure, contains_bit small]
      rw [beq_eq_false_iff_ne.mpr different, List.getD_eq_getElem?_getD, List.getElem?_eq_getElem number]
      rfl

/-- The task when the signals from `sig` on have been scanned, and the user signal that ended the scan. -/
def scan : Nat → Nat → TaskControlBlock → TaskControlBlock × Option Nat
  | 0, _, self => (self, none)
  | count + 1, sig, self =>
    if self.delivers sig then
      if isKernelNumber sig then (self.kernelSignal ((1 <<< sig : Nat) : BitVec 32)).scan count (sig + 1)
      else (self, some sig)
    else self.scan count (sig + 1)

def scanEnd (self : TaskControlBlock) (count sig : Nat) : Nat := (self.scan count sig).2.getD (sig + count)

theorem kernel_cases (kernel : isKernelNumber sig = true) : sig = 0 ∨ sig = 9 ∨ sig = 18 ∨ sig = 19 := by
  simpa [isKernelNumber, or_assoc] using kernel

structure Handled (task : TaskControlBlock) (sig : Nat) (after : TaskControlBlock) : Prop where
  killed : after.killed = (task.killed || sig == 0 || sig == 9)
  frozen : after.frozen = if sig = 19 then true else if sig = 18 then false else task.frozen
  bits : ∀ i, after.signals.getLsbD i = (task.signals.getLsbD i && !(i == sig && (i == 18 || i == 19)))
  rest : after = { task with signals := after.signals, killed := after.killed, frozen := after.frozen }

theorem xor_bit {flags : SignalFlags} (pending : flags.getLsbD sig = true) (i : Nat) :
    (flags ^^^ BitVec.twoPow 32 sig).getLsbD i = (flags.getLsbD i && !(i == sig)) := by
  have small : sig < 32 := BitVec.lt_of_getLsbD pending
  rw [BitVec.getLsbD_xor, BitVec.getLsbD_twoPow]
  by_cases same : i = sig
  · subst same
    simp [pending, small]
  · simp [same, Ne.symm same]

theorem kernelSignal_kill {signal : SignalFlags} (notStop : signal ≠ SignalFlags.SIGSTOP)
    (notCont : signal ≠ SignalFlags.SIGCONT) : task.kernelSignal signal = { task with killed := true } := by
  unfold kernelSignal
  rw [if_neg notStop, if_neg notCont]

theorem kernelSignal_handled (kernel : isKernelNumber sig = true) (pending : task.signals.getLsbD sig = true) :
    Handled task sig (task.kernelSignal ((1 <<< sig : Nat) : BitVec 32)) := by
  rcases kernel_cases kernel with rfl | rfl | rfl | rfl
  · rw [kernelSignal_kill (by decide) (by decide)]
    refine ⟨by simp, rfl, fun i => ?_, rfl⟩
    cases i <;> simp
  · rw [kernelSignal_kill (by decide) (by decide)]
    refine ⟨by simp, rfl, fun i => ?_, rfl⟩
    by_cases same : i = 9
    · subst same
      simp
    · simp [same]
  · have cont : task.kernelSignal ((1 <<< 18 : Nat) : BitVec 32) =
        { task with signals := task.signals ^^^ BitVec.twoPow 32 18, frozen := false } := by
      have contained : SignalFlags.contains task.signals SignalFlags.SIGCONT = true := by
        rw [← pending]
        exact contains_bit (by decide)
      unfold kernelSignal
      rw [if_neg (by decide), if_pos (by decide), if_pos contained]
      rfl
    rw [cont]
    refine ⟨by simp, rfl, fun i => ?_, rfl⟩
    rw [xor_bit pending]
    by_cases same : i = 18
    · subst same
      rfl
    · rw [beq_eq_false_iff_ne.mpr same, Bool.false_and]
  · have stop : task.kernelSignal ((1 <<< 19 : Nat) : BitVec 32) =
        { task with frozen := true, signals := task.signals ^^^ BitVec.twoPow 32 19 } := by
      unfold kernelSignal
      rw [if_pos (by decide)]
      rfl
    rw [stop]
    refine ⟨by simp, rfl, fun i => ?_, rfl⟩
    rw [xor_bit pending]
    by_cases same : i = 19
    · subst same
      rfl
    · rw [beq_eq_false_iff_ne.mpr same, Bool.false_and]

theorem delivers_pending (delivers : task.delivers sig = true) : task.signals.getLsbD sig = true := by
  unfold TaskControlBlock.delivers at delivers
  exact (Bool.and_eq_true_iff.mp (Bool.and_eq_true_iff.mp delivers).1).1

theorem Handled.formed (handled : Handled task sig after) (formed : task.SignalsFormed) : after.SignalsFormed := by
  rw [handled.rest]
  exact ⟨formed.actions, formed.handling⟩

theorem Handled.delivers {other : Nat} (handled : Handled task sig after) (different : other ≠ sig) :
    after.delivers other = task.delivers other := by
  have bit := handled.bits other
  rw [beq_eq_false_iff_ne.mpr different] at bit
  rw [handled.rest]
  simp only [TaskControlBlock.delivers, bit, Bool.false_and, Bool.not_false, Bool.and_true]

/-! ### The scan -/

structure Scanned (task : TaskControlBlock) (start stop : Nat) (after : TaskControlBlock) : Prop where
  killed : after.killed = true ↔ task.killed = true ∨ (start ≤ 0 ∧ 0 < stop ∧ task.delivers 0 = true) ∨
    (start ≤ 9 ∧ 9 < stop ∧ task.delivers 9 = true)
  frozen : after.frozen = true ↔ (start ≤ 19 ∧ 19 < stop ∧ task.delivers 19 = true) ∨
    ¬(start ≤ 18 ∧ 18 < stop ∧ task.delivers 18 = true) ∧ task.frozen = true
  bits : ∀ i, after.signals.getLsbD i = true ↔ task.signals.getLsbD i = true ∧
    ¬((i = 18 ∨ i = 19) ∧ start ≤ i ∧ i < stop ∧ task.delivers i = true)
  rest : after = { task with signals := after.signals, killed := after.killed, frozen := after.frozen }

theorem Scanned.skip {stop : Nat} (scanned : Scanned task (sig + 1) stop after) (quiet : task.delivers sig = false) :
    Scanned task sig stop after := by
  have same : ∀ i, sig + 1 ≤ i ∧ i < stop ∧ task.delivers i = true ↔ sig ≤ i ∧ i < stop ∧ task.delivers i = true := by
    intro i
    by_cases first : i = sig
    · subst first
      simp [quiet]
    · constructor
      · rintro ⟨_, rest⟩
        exact ⟨by omega, rest⟩
      · rintro ⟨_, rest⟩
        exact ⟨by omega, rest⟩
  obtain ⟨killed, frozen, bits, rest⟩ := scanned
  simp only [same] at killed frozen bits
  exact ⟨killed, frozen, bits, rest⟩

theorem Scanned.handle {middle : TaskControlBlock} {stop : Nat} (handled : Handled task sig middle)
    (kernel : isKernelNumber sig = true) (delivers : task.delivers sig = true) (inside : sig < stop)
    (scanned : Scanned middle (sig + 1) stop after) : Scanned task sig stop after := by
  have later : ∀ i, sig + 1 ≤ i ∧ i < stop ∧ middle.delivers i = true ↔
      i ≠ sig ∧ sig ≤ i ∧ i < stop ∧ task.delivers i = true := by
    intro i
    by_cases first : i = sig
    · constructor
      · rintro ⟨large, _⟩
        omega
      · rintro ⟨different, _⟩
        exact absurd first different
    · rw [handled.delivers first]
      constructor
      · rintro ⟨_, rest⟩
        exact ⟨first, by omega, rest⟩
      · rintro ⟨_, _, rest⟩
        exact ⟨by omega, rest⟩
  obtain ⟨killed, frozen, bits, rest⟩ := scanned
  simp only [later] at killed frozen bits
  refine ⟨?_, ?_, ?_, ?_⟩
  · rw [killed, handled.killed]
    rcases kernel_cases kernel with rfl | rfl | rfl | rfl <;> simp [delivers, inside]
  · rw [frozen, handled.frozen]
    rcases kernel_cases kernel with rfl | rfl | rfl | rfl <;> simp [delivers, inside]
  · intro i
    rw [bits i, handled.bits i]
    by_cases same : i = sig
    · subst same
      simp [delivers, inside]
    · simp [same]
  · rw [rest, handled.rest]

theorem scan_kernel {count : Nat} (delivers : task.delivers sig = true) (kernel : isKernelNumber sig = true) :
    task.scan (count + 1) sig = (task.kernelSignal ((1 <<< sig : Nat) : BitVec 32)).scan count (sig + 1) := by
  rw [scan, if_pos delivers, if_pos kernel]

theorem scan_user {count : Nat} (delivers : task.delivers sig = true) (user : isKernelNumber sig = false) :
    task.scan (count + 1) sig = (task, some sig) := by
  rw [scan, if_pos delivers, user, if_neg Bool.false_ne_true]

theorem scan_quiet {count : Nat} (quiet : task.delivers sig = false) :
    task.scan (count + 1) sig = task.scan count (sig + 1) := by
  rw [scan, quiet, if_neg Bool.false_ne_true]

theorem scanEnd_next {other : TaskControlBlock} {count : Nat} (next : task.scan (count + 1) sig = other.scan count (sig + 1)) :
    task.scanEnd (count + 1) sig = other.scanEnd count (sig + 1) := by
  unfold scanEnd
  rw [next, Nat.add_right_comm sig 1 count, Nat.add_assoc]

/-- The scan ends at the first user signal that is delivered, or with the last signal. -/
theorem scan_end (count sig : Nat) (task : TaskControlBlock) : sig ≤ task.scanEnd count sig ∧
    (∀ j, sig ≤ j → j < task.scanEnd count sig → task.delivers j = true → isKernelNumber j = true) ∧
    ((task.scan count sig).2 = none ∧ task.scanEnd count sig = sig + count ∨
      ∃ user, (task.scan count sig).2 = some user ∧ task.scanEnd count sig = user ∧ user < sig + count ∧
        task.delivers user = true ∧ isKernelNumber user = false) := by
  induction count generalizing sig task with
  | zero => exact ⟨Nat.le_refl sig, fun j least less => absurd less (Nat.not_lt.mpr least), Or.inl ⟨rfl, rfl⟩⟩
  | succ count ih =>
    cases delivers : task.delivers sig with
    | false =>
      obtain ⟨least, before, last⟩ := ih (sig + 1) task
      rw [scanEnd_next (scan_quiet delivers), scan_quiet delivers]
      refine ⟨by omega, fun j above less delivered => ?_, ?_⟩
      · by_cases first : j = sig
        · rw [first, delivers] at delivered
          cases delivered
        · exact before j (by omega) less delivered
      · rw [← Nat.add_assoc, Nat.add_right_comm sig count 1]
        exact last
    | true =>
      cases kernel : isKernelNumber sig with
      | false =>
        have stop : task.scanEnd (count + 1) sig = sig := by
          unfold scanEnd
          rw [scan_user delivers kernel]
          rfl
        rw [stop, scan_user delivers kernel]
        exact ⟨Nat.le_refl sig, fun j least less => absurd less (Nat.not_lt.mpr least),
          Or.inr ⟨sig, rfl, rfl, by omega, delivers, kernel⟩⟩
      | true =>
        have handled := kernelSignal_handled kernel (delivers_pending delivers)
        obtain ⟨least, before, last⟩ := ih (sig + 1) (task.kernelSignal ((1 <<< sig : Nat) : BitVec 32))
        rw [scanEnd_next (scan_kernel delivers kernel), scan_kernel delivers kernel]
        refine ⟨by omega, fun j above less delivered => ?_, ?_⟩
        · by_cases first : j = sig
          · rw [first]
            exact kernel
          · rw [← handled.delivers first] at delivered
            exact before j (by omega) less delivered
        · rcases last with ⟨none, stop⟩ | ⟨user, found, stop, inside, delivered, notKernel⟩
          · exact Or.inl ⟨none, by omega⟩
          · rw [handled.delivers (by omega)] at delivered
            exact Or.inr ⟨user, found, stop, by omega, delivered, notKernel⟩

theorem scan_scanned (count sig : Nat) (task : TaskControlBlock) :
    Scanned task sig (task.scanEnd count sig) (task.scan count sig).1 := by
  have nothing : ∀ {task : TaskControlBlock} {sig : Nat}, Scanned task sig sig task := by
    intro task sig
    have none : ∀ i, ¬(sig ≤ i ∧ i < sig ∧ task.delivers i = true) := fun i inside => by omega
    refine ⟨?_, ?_, ?_, rfl⟩
    · simp only [none, or_false]
    · simp only [none, not_false_eq_true, true_and, false_or]
    · intro i
      simp only [none, and_false, not_false_eq_true, and_true]
  induction count generalizing sig task with
  | zero => exact nothing
  | succ count ih =>
    cases delivers : task.delivers sig with
    | false =>
      rw [scanEnd_next (scan_quiet delivers), scan_quiet delivers]
      exact (ih (sig + 1) task).skip delivers
    | true =>
      cases kernel : isKernelNumber sig with
      | false =>
        have stop : task.scanEnd (count + 1) sig = sig := by
          unfold scanEnd
          rw [scan_user delivers kernel]
          rfl
        rw [stop, scan_user delivers kernel]
        exact nothing
      | true =>
        have handled := kernelSignal_handled kernel (delivers_pending delivers)
        have least := (scan_end count (sig + 1) (task.kernelSignal ((1 <<< sig : Nat) : BitVec 32))).1
        rw [scanEnd_next (scan_kernel delivers kernel), scan_kernel delivers kernel]
        exact Scanned.handle handled kernel delivers least (ih (sig + 1) _)

/-! ### The whole pass -/

/-- No user signal with a smaller number is delivered, which would end the scan before `sig`. -/
def reaches (self : TaskControlBlock) (sig : Nat) : Prop :=
  ∀ j < sig, self.delivers j = true → isKernelNumber j = true

/-- The pass handles the kernel signal `sig`. -/
def handles (self : TaskControlBlock) (sig : Nat) : Prop := self.delivers sig = true ∧ self.reaches sig

theorem handles_iff (small : sig < 32) (kernel : isKernelNumber sig = true) :
    (0 ≤ sig ∧ sig < task.scanEnd 32 0 ∧ task.delivers sig = true) ↔ task.handles sig := by
  obtain ⟨_, before, last⟩ := scan_end 32 0 task
  constructor
  · rintro ⟨_, inside, delivers⟩
    exact ⟨delivers, fun j less delivered => before j (Nat.zero_le j) (Nat.lt_trans less inside) delivered⟩
  · rintro ⟨delivers, reaches⟩
    refine ⟨Nat.zero_le sig, ?_, delivers⟩
    rcases last with ⟨_, stop⟩ | ⟨user, _, stop, _, delivered, notKernel⟩
    · omega
    · by_contra outside
      rcases Nat.lt_or_eq_of_le (Nat.le_of_not_lt outside) with less | same
      · rw [stop] at less
        exact absurd (reaches user less delivered) (by rw [notKernel]; exact Bool.false_ne_true)
      · rw [← same, stop, notKernel] at kernel
        cases kernel

/-- What a pass over all pending signals does to `killed`, `frozen` and the pending set. -/
theorem pass_effect (task : TaskControlBlock) :
    ((task.scan 32 0).1.killed = true ↔ task.killed = true ∨ task.handles 0 ∨ task.handles 9) ∧
    ((task.scan 32 0).1.frozen = true ↔ task.handles 19 ∨ ¬task.handles 18 ∧ task.frozen = true) ∧
    ∀ i, (task.scan 32 0).1.signals.getLsbD i = true ↔
      task.signals.getLsbD i = true ∧ ¬((i = 18 ∨ i = 19) ∧ task.handles i) := by
  obtain ⟨killed, frozen, bits, _⟩ := scan_scanned 32 0 task
  rw [handles_iff (by decide) (by decide), handles_iff (by decide) (by decide)] at killed frozen
  refine ⟨killed, frozen, fun i => ?_⟩
  rw [bits i]
  refine and_congr_right fun _ => not_congr (and_congr_right fun which => ?_)
  rcases which with rfl | rfl
  · exact handles_iff (by decide) (by decide)
  · exact handles_iff (by decide) (by decide)

theorem scan_eq_some {user : Nat} : (task.scan 32 0).2 = some user ↔
    task.delivers user = true ∧ isKernelNumber user = false ∧ task.reaches user := by
  obtain ⟨_, before, last⟩ := scan_end 32 0 task
  constructor
  · intro ended
    rcases last with ⟨none, _⟩ | ⟨other, found, stop, _, delivers, notKernel⟩
    · rw [none] at ended
      cases ended
    · obtain rfl := Option.some.inj (ended.symm.trans found)
      exact ⟨delivers, notKernel, fun j less delivered => before j (Nat.zero_le j) (by omega) delivered⟩
  · rintro ⟨delivers, notKernel, reaches⟩
    have small : user < 32 := BitVec.lt_of_getLsbD (delivers_pending delivers)
    rcases last with ⟨_, stop⟩ | ⟨other, found, stop, _, delivered, otherUser⟩
    · rw [before user (Nat.zero_le user) (by omega) delivers] at notKernel
      cases notKernel
    · rcases Nat.lt_trichotomy user other with less | rfl | greater
      · rw [before user (Nat.zero_le user) (by omega) delivers] at notKernel
        cases notKernel
      · exact found
      · rw [reaches other greater delivered] at otherUser
        cases otherUser

/-- The pass starts the handler of the user signal `user`. -/
def starts (self : TaskControlBlock) (user : Nat) : Prop :=
  self.delivers user = true ∧ isKernelNumber user = false ∧ self.reaches user ∧
    (self.signalActions.getD user .default).handler ≠ 0

end TaskControlBlock

section
variable {P : Platform} {k : Kernel P} {id : Nat} {task : TaskControlBlock}

theorem setTask_setTask (first second : TaskControlBlock) :
    (k.setTask id first).setTask id second = k.setTask id second := by
  unfold Kernel.setTask
  rw [Kernel.set_set]

/-- `check_pending_signals` is the scan, followed by the delivery of the user signal it found. -/
theorem checkPendingSignalsFrom_rule {Q : Unit → Kernel P → Prop} {E : Halt → Prop} {count sig : Nat}
    (current : k.current = some id) (found : k.tasks id = some task) (formed : task.SignalsFormed) (fits : sig + count ≤ 32)
    (quiet : (task.scan count sig).2 = none → Q () (k.setTask id (task.scan count sig).1))
    (caught : ∀ user, (task.scan count sig).2 = some user →
      wp (callUserSignalHandler user ((1 <<< user : Nat) : BitVec 32)) Q E (k.setTask id (task.scan count sig).1)) :
    wp (checkPendingSignalsFrom count sig) Q E k := by
  induction count generalizing k task sig with
  | zero =>
    have same : k.setTask id task = k := by
      unfold Kernel.setTask
      rw [Kernel.set_self found]
    have last := quiet rfl
    rw [TaskControlBlock.scan, same] at last
    exact last
  | succ count ih =>
    simp only [checkPendingSignalsFrom, wp_bind, wp_currentTask, current, wp_innerOf, found,
      TaskControlBlock.deliverable_bit formed (show sig < 32 by omega), fault, Except.mapError, wp_lift_ok]
    cases delivers : task.delivers sig with
    | false =>
      rw [TaskControlBlock.scan_quiet delivers] at quiet caught
      exact ih current found formed (by omega) quiet caught
    | true =>
      rw [if_pos rfl, isKernelSignal_bit sig (by omega)]
      cases kernel : isKernelNumber sig with
      | false =>
        rw [TaskControlBlock.scan_user delivers kernel] at caught
        have same : k.setTask id task = k := by
          unfold Kernel.setTask
          rw [Kernel.set_self found]
        have last := caught sig rfl
        rw [same] at last
        exact last
      | true =>
        have handled := TaskControlBlock.kernelSignal_handled kernel (TaskControlBlock.delivers_pending delivers)
        rw [TaskControlBlock.scan_kernel delivers kernel] at quiet caught
        rw [if_pos rfl]
        simp only [callKernelSignalHandler, wp_bind, wp_currentTask, current, wp_innerOf, found, wp_putInner]
        refine ih (k := k.setTask id (task.kernelSignal ((1 <<< sig : Nat) : BitVec 32))) current
          (Kernel.setTask_same _ _ _) (handled.formed formed) (by omega) ?_ ?_
        · rw [setTask_setTask]
          exact quiet
        · rw [setTask_setTask]
          exact caught

def TaskControlBlock.delivered (self : TaskControlBlock) (user : Nat) (mem : PhysMem) : TaskControlBlock :=
  { self with
    handlingSig := user, signals := self.signals ^^^ ((1 <<< user : Nat) : BitVec 32)
    trapCtxBackup := some (.load mem self.trapCxPpn) }

def TaskControlBlock.enterHandler (self : TaskControlBlock) (user handler : Nat) (mem : PhysMem) : PhysMem :=
  (mem.writeWord (TrapContext.wordAddr self.trapCxPpn TrapContext.sepcWord) handler).writeWord
    (TrapContext.wordAddr self.trapCxPpn 10) user

theorem callUserSignalHandler_rule {Q : Unit → Kernel P → Prop} {E : Halt → Prop} {user : Nat}
    (current : k.current = some id) (found : k.tasks id = some task) (formed : task.SignalsFormed) (small : user < 32)
    (ignored : (task.signalActions.getD user .default).handler = 0 → Q () k)
    (delivered : (task.signalActions.getD user .default).handler ≠ 0 →
      Q () ((k.setTask id (task.delivered user k.mm.mem)).setMem
        (task.enterHandler user (task.signalActions.getD user .default).handler k.mm.mem))) :
    wp (callUserSignalHandler user ((1 <<< user : Nat) : BitVec 32)) Q E k := by
  have inside : user < task.signalActions.length := by
    rw [formed.actions]
    exact small
  have action : task.signalActions.getD user .default = task.signalActions[user] := by
    rw [List.getD_eq_getElem?_getD, List.getElem?_eq_getElem inside]
    rfl
  rw [action] at ignored delivered
  simp only [callUserSignalHandler, wp_bind, wp_currentTask, current, wp_innerOf, found, getIndex_ok inside, fault,
    Except.mapError, wp_lift_ok]
  split
  · rename_i handler
    have found₁ : (k.setTask id (task.delivered user k.mm.mem)).tasks id = some (task.delivered user k.mm.mem) :=
      Kernel.setTask_same _ _ _
    apply wp_bind.mpr
    rw [wp_userMemory]
    apply wp_bind.mpr
    rw [wp_putInner]
    apply wp_bind.mpr
    refine (wp_setTrapCxWord found₁).mpr ?_
    refine (wp_setTrapCxWord (by exact found₁)).mpr ?_
    exact delivered handler
  · rename_i none
    exact ignored (not_not.mp none)

/-- One pass: the kernel signals are handled, and at most one user signal is delivered. -/
theorem checkPendingSignals_rule {Q : Unit → Kernel P → Prop} {E : Halt → Prop}
    (current : k.current = some id) (found : k.tasks id = some task) (formed : task.SignalsFormed)
    (quiet : (∀ user, ¬task.starts user) → Q () (k.setTask id (task.scan 32 0).1))
    (caught : ∀ user, task.starts user →
      Q () ((k.setTask id ((task.scan 32 0).1.delivered user k.mm.mem)).setMem
        (task.enterHandler user (task.signalActions.getD user .default).handler k.mm.mem))) :
    wp checkPendingSignals Q E k := by
  have rest := (TaskControlBlock.scan_scanned 32 0 task).rest
  show wp (checkPendingSignalsFrom 32 0) Q E k
  refine checkPendingSignalsFrom_rule current found formed (Nat.le_refl 32) (fun none => quiet ?_) ?_
  · rintro user ⟨delivers, notKernel, reaches, _⟩
    rw [TaskControlBlock.scan_eq_some.mpr ⟨delivers, notKernel, reaches⟩] at none
    cases none
  intro user ended
  obtain ⟨delivers, notKernel, reaches⟩ := TaskControlBlock.scan_eq_some.mp ended
  have small : user < 32 := BitVec.lt_of_getLsbD (TaskControlBlock.delivers_pending delivers)
  have formed₁ : (task.scan 32 0).1.SignalsFormed := by
    rw [rest]
    exact ⟨formed.actions, formed.handling⟩
  have page : (task.scan 32 0).1.trapCxPpn = task.trapCxPpn := by rw [rest]
  have actions : (task.scan 32 0).1.signalActions = task.signalActions := by rw [rest]
  refine callUserSignalHandler_rule current (Kernel.setTask_same _ _ _) formed₁ small (fun none => quiet ?_) fun handler => ?_
  · rintro other ⟨delivers', notKernel', reaches', handler⟩
    have again := TaskControlBlock.scan_eq_some.mpr ⟨delivers', notKernel', reaches'⟩
    obtain rfl := Option.some.inj (ended.symm.trans again)
    rw [actions] at none
    exact handler none
  rw [setTask_setTask]
  rw [actions] at handler
  have last := caught user ⟨delivers, notKernel, reaches, handler⟩
  unfold TaskControlBlock.enterHandler at last ⊢
  rw [page, actions]
  exact last

end

end SecureIpc
