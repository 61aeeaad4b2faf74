import SecureIpc.Run.Delivery
import SecureIpc.Run.Trace

/-! When signals take effect, and when they are lost. -/

namespace SecureIpc
open Lib

section
variable {P : Platform} {k k₁ : Kernel P} {id : Nat} {task after : TaskControlBlock}

/-! ### The end of a trap -/

theorem currentTask_run (current : k.current = some id) : currentTask k = .ok (id, k) := by
  simp only [currentTask, bind, StateT.bind, Program.read, Except.bind, current]
  rfl

theorem innerOf_run (found : k.tasks id = some task) : innerOf id k = .ok (task, k) := by
  simp only [innerOf, bind, StateT.bind, Program.read, Except.bind, found]
  rfl

theorem suspend_run (current : k.current = some id) (found : k.tasks id = some task) (point : KernelPoint) :
    suspendCurrentAndRunNext point k = .ok ((), k.suspended id task point) := by
  have spec : wp (suspendCurrentAndRunNext point) (fun _ k' => k' = k.suspended id task point) (fun _ => False) k := by
    simp only [suspendCurrentAndRunNext, takeCurrentTask, addTask, wp_bind, wp_currentTask, current, wp_modify, wp_pure,
      wp_innerOf, found, wp_putInner, Kernel.setTask_same]
    rfl
  obtain ⟨_, k', run, rfl⟩ := wp_returns spec
  exact run

theorem handleSignals_leaves (pass : checkPendingSignals k = .ok ((), k₁)) (current : k₁.current = some id)
    (found : k₁.tasks id = some after) (leaves : (!after.frozen || after.killed) = true) :
    handleSignals k = .ok (true, k₁) := by
  unfold handleSignals
  rw [run_bind pass, run_bind (currentTask_run current), run_bind (innerOf_run found), if_pos leaves]
  rfl

theorem handleSignals_waits (pass : checkPendingSignals k = .ok ((), k₁)) (current : k₁.current = some id)
    (found : k₁.tasks id = some after) (waits : ¬(!after.frozen || after.killed) = true) :
    handleSignals k = .ok (false, k₁.suspended id after .frozen) := by
  unfold handleSignals
  rw [run_bind pass, run_bind (currentTask_run current), run_bind (innerOf_run found), if_neg waits,
    run_bind (suspend_run current found .frozen)]
  rfl

theorem trapTail_exits (left : handleSignals k = .ok (true, k₁)) (current : k₁.current = some id)
    (found : k₁.tasks id = some after) {error : Int × String} (fatal : SignalFlags.checkError after.signals = some error) :
    trapTail k = exitCurrentAndRunNext error.1 k₁ := by
  have checked : checkSignalsErrorOfCurrent k₁ = .ok (some error, k₁) := by
    unfold checkSignalsErrorOfCurrent
    rw [run_bind (currentTask_run current), run_bind (innerOf_run found), fatal]
    rfl
  unfold trapTail
  rw [run_bind left, if_pos rfl, run_bind checked]

theorem trapTail_waits (left : handleSignals k = .ok (false, k₁)) : trapTail k = .ok ((), k₁) := by
  unfold trapTail
  rw [run_bind left]
  rfl

theorem exit_zombie (current : k.current = some id) (exitCode : Int) :
    wp (exitCurrentAndRunNext exitCode) (fun _ k' => ∃ task, k'.tasks id = some task ∧ task.isZombie = true)
      (fun _ => True) k := by
  have any : ∀ {α : Type} {p : KernelM P α} {k : Kernel P}, wp p (fun _ _ => True) (fun _ => True) k := by
    intro α p k
    exact wp_intro (fun _ _ _ => trivial) fun _ _ => trivial
  simp only [exitCurrentAndRunNext, wp_observe, takeCurrentTask, wp_bind, wp_currentTask, Kernel.observe_current, current,
    wp_modify, wp_pure, wp_innerOf, Kernel.observe_tasks]
  cases k.tasks id with
  | none => trivial
  | some inner =>
    dsimp only
    split
    · trivial
    · refine wp_bind.mpr (wp_mono any (fun _ k₁ _ => ?_) fun _ _ => trivial)
      refine wp_bind.mpr (wp_mono any (fun _ k₂ _ => ?_) fun _ _ => trivial)
      refine wp_bind.mpr (wp_mono any (fun memorySet k₃ _ => ?_) fun _ _ => trivial)
      exact ⟨_, Kernel.setTask_same _ _ _, rfl⟩

/-! ### `SIGKILL` -/

/-- The process was marked as killed, or this pass handles `SIGDEF` or `SIGKILL`, or it ends with the
process not frozen. -/
def TaskControlBlock.KillTakesEffect (self : TaskControlBlock) : Prop :=
  self.killed = true ∨ self.handles 0 ∨ self.handles 9 ∨ ¬self.handles 19 ∧ (self.handles 18 ∨ self.frozen = false)

/-- What a pass of the running task `id` over its pending signals does. -/
structure Passed (k : Kernel P) (id : Nat) (task : TaskControlBlock) (k₁ : Kernel P) (after : TaskControlBlock) : Prop where
  run : checkPendingSignals k = .ok ((), k₁)
  current : k₁.current = some id
  tasks : k₁.tasks = Kernel.set k.tasks id (some after)
  zombie : after.isZombie = task.isZombie
  killed : after.killed = true ↔ task.killed = true ∨ task.handles 0 ∨ task.handles 9
  frozen : after.frozen = true ↔ task.handles 19 ∨ ¬task.handles 18 ∧ task.frozen = true
  bits : ∀ i, after.signals.getLsbD i = true ↔
    task.signals.getLsbD i = true ∧ ¬((i = 18 ∨ i = 19) ∧ task.handles i) ∧ ¬task.starts i

theorem Passed.found (passed : Passed k id task k₁ after) : k₁.tasks id = some after := by
  rw [passed.tasks, Kernel.set_same]

theorem TaskControlBlock.starts_unique {i user : Nat} (starts : task.starts user) : task.starts i ↔ i = user := by
  constructor
  · intro other
    have first := TaskControlBlock.scan_eq_some.mpr ⟨starts.1, starts.2.1, starts.2.2.1⟩
    have second := TaskControlBlock.scan_eq_some.mpr ⟨other.1, other.2.1, other.2.2.1⟩
    exact Option.some.inj (second.symm.trans first)
  · intro same
    rw [same]
    exact starts

theorem pass_run (current : k.current = some id) (found : k.tasks id = some task) (formed : task.SignalsFormed) :
    ∃ k₁ after, Passed k id task k₁ after := by
  obtain ⟨killed, frozen, bits⟩ := TaskControlBlock.pass_effect task
  have alive : (task.scan 32 0).1.isZombie = task.isZombie := by
    rw [(TaskControlBlock.scan_scanned 32 0 task).rest]
    rfl
  have spec : wp checkPendingSignals (fun _ k₁ => checkPendingSignals k = .ok ((), k₁) → ∃ after, Passed k id task k₁ after)
      (fun _ => False) k := by
    refine checkPendingSignals_rule current found formed ?_ ?_
    · intro none run
      refine ⟨_, run, current, rfl, alive, killed, frozen, fun i => ?_⟩
      rw [bits i]
      exact and_congr_right fun _ => (and_iff_left (none i)).symm
    · intro user starts run
      refine ⟨_, run, current, rfl, alive, killed, frozen, fun i => ?_⟩
      have pending : (task.scan 32 0).1.signals.getLsbD user = true := by
        refine (bits user).mpr ⟨TaskControlBlock.delivers_pending starts.1, ?_⟩
        intro both
        obtain ⟨which, _⟩ := both
        rcases which with rfl | rfl
        · cases starts.2.1
        · cases starts.2.1
      unfold TaskControlBlock.delivered
      rw [cast_bit, TaskControlBlock.xor_bit pending, TaskControlBlock.starts_unique starts, Bool.and_eq_true, bits i,
        and_assoc]
      simp
  obtain ⟨_, k₁, run, passed⟩ := wp_returns spec
  exact ⟨k₁, passed run⟩

theorem Passed.leaves_iff (passed : Passed k id task k₁ after) :
    (!after.frozen || after.killed) = true ↔ task.KillTakesEffect := by
  rw [Bool.or_eq_true, Bool.not_eq_true', ← Bool.not_eq_true, passed.frozen, passed.killed, TaskControlBlock.KillTakesEffect, not_or,
    not_and_or, not_not, Bool.not_eq_true, or_comm, or_assoc, or_assoc]

theorem Passed.leaves (passed : Passed k id task k₁ after) (effect : task.KillTakesEffect) :
    handleSignals k = .ok (true, k₁) :=
  handleSignals_leaves passed.run passed.current passed.found (passed.leaves_iff.mpr effect)

theorem Passed.waits (passed : Passed k id task k₁ after) (waits : ¬(!after.frozen || after.killed) = true) :
    handleSignals k = .ok (false, k₁.suspended id after .frozen) :=
  handleSignals_waits passed.run passed.current passed.found waits

theorem checkError_sigkill {flags : SignalFlags} (pending : flags.getLsbD 9 = true) :
    ∃ error, SignalFlags.checkError flags = some error := by
  have contained : SignalFlags.contains flags SignalFlags.SIGKILL = true := by
    rw [← pending]
    exact contains_bit (by decide)
  unfold SignalFlags.checkError
  rw [if_pos contained]
  split_ifs
  · exact ⟨_, rfl⟩
  · exact ⟨_, rfl⟩
  · exact ⟨_, rfl⟩
  · exact ⟨_, rfl⟩
  · exact ⟨_, rfl⟩

/-- A trap that ends with `SIGKILL` pending makes the process exit in exactly these cases; otherwise
the process goes back to waiting. -/
theorem sigkill_exits_iff (current : k.current = some id) (found : k.tasks id = some task) (formed : task.SignalsFormed)
    (pending : SignalFlags.contains task.signals SignalFlags.SIGKILL = true) :
    (∃ k₁ exitCode, k₁.current = some id ∧ trapTail k = exitCurrentAndRunNext exitCode k₁) ↔ task.KillTakesEffect := by
  have bit : task.signals.getLsbD 9 = true := by
    rw [← pending]
    exact (contains_bit (by decide)).symm
  obtain ⟨k₁, after, passed⟩ := pass_run current found formed
  have still : after.signals.getLsbD 9 = true := by
    refine (passed.bits 9).mpr ⟨bit, by omega, ?_⟩
    intro ⟨_, notKernel, _⟩
    cases notKernel
  constructor
  · intro ⟨k₂, exitCode, current₂, exits⟩
    by_contra waits
    rw [← passed.leaves_iff] at waits
    have result := trapTail_waits (passed.waits waits)
    rw [exits] at result
    obtain ⟨last, looked, zombie⟩ := wp_ok (exit_zombie current₂ exitCode) result
    rcases setTask_cases looked with ⟨_, rfl⟩ | ⟨different, _⟩
    · cases zombie
    · exact different rfl
  · intro effect
    obtain ⟨error, fatal⟩ := checkError_sigkill still
    exact ⟨k₁, error.1, passed.current, trapTail_exits (passed.leaves effect) passed.current passed.found fatal⟩

/-! ### Fatal signals -/

def fatalSignals : List Nat := [2, 4, 6, 8, 9, 11]

/-- After `handle_signals`, `check_signals_error_of_current` makes the process exit with code `-s`. -/
def Kernel.ExitsWith (self : Kernel P) (s : Nat) : Prop :=
  ∃ k₁ k₂ message, handleSignals self = .ok (true, k₁) ∧ checkSignalsErrorOfCurrent k₁ = .ok (some (-(s : Int), message), k₂)

/-- Signal `s` is pending, and it is not the one whose handler starts now. -/
def TaskControlBlock.StaysPending (self : TaskControlBlock) (s : Nat) : Prop :=
  self.signals.getLsbD s = true ∧ ¬self.starts s

def TaskControlBlock.FirstFatal (self : TaskControlBlock) (s : Nat) : Prop :=
  s ∈ fatalSignals ∧ self.StaysPending s ∧ ∀ r ∈ fatalSignals, r < s → ¬self.StaysPending r

theorem checkError_iff {flags : SignalFlags} {s : Nat} :
    (∃ message, SignalFlags.checkError flags = some (-(s : Int), message)) ↔
      s ∈ fatalSignals ∧ flags.getLsbD s = true ∧ ∀ r ∈ fatalSignals, r < s → ¬flags.getLsbD r = true := by
  have bits : SignalFlags.contains flags SignalFlags.SIGINT = flags.getLsbD 2 ∧
      SignalFlags.contains flags SignalFlags.SIGILL = flags.getLsbD 4 ∧
      SignalFlags.contains flags SignalFlags.SIGABRT = flags.getLsbD 6 ∧
      SignalFlags.contains flags SignalFlags.SIGFPE = flags.getLsbD 8 ∧
      SignalFlags.contains flags SignalFlags.SIGKILL = flags.getLsbD 9 ∧
      SignalFlags.contains flags SignalFlags.SIGSEGV = flags.getLsbD 11 :=
    ⟨contains_bit (by decide), contains_bit (by decide), contains_bit (by decide), contains_bit (by decide),
      contains_bit (by decide), contains_bit (by decide)⟩
  obtain ⟨int, ill, abrt, fpe, kill, segv⟩ := bits
  have code : ∀ {c : Int} {text : String}, (∃ message, some (c, text) = some (-(s : Int), message)) ↔ c = -(s : Int) := by
    intro c text
    simp only [Option.some.injEq, Prod.mk.injEq, exists_and_left, exists_eq', and_true]
  have members : ∀ {p : Nat → Prop}, (∀ r ∈ fatalSignals, p r) ↔ p 2 ∧ p 4 ∧ p 6 ∧ p 8 ∧ p 9 ∧ p 11 := by
    intro p
    simp [fatalSignals]
  have cases : s ∈ fatalSignals ↔ s = 2 ∨ s = 4 ∨ s = 6 ∨ s = 8 ∨ s = 9 ∨ s = 11 := by simp [fatalSignals]
  unfold SignalFlags.checkError
  rw [int, ill, abrt, fpe, kill, segv, members, cases]
  -- the first fatal signal that is pending decides
  split_ifs with h2 h4 h6 h8 h9 h11
  · rw [code]
    grind
  · rw [code]
    grind
  · rw [code]
    grind
  · rw [code]
    grind
  · rw [code]
    grind
  · rw [code]
    grind
  · refine iff_of_false (by simp) ?_
    grind

theorem checkError_code {flags : SignalFlags} {error : Int × String} (fatal : SignalFlags.checkError flags = some error) :
    ∃ s : Nat, error.1 = -(s : Int) := by
  unfold SignalFlags.checkError at fatal
  split_ifs at fatal
  · obtain rfl := Option.some.inj fatal
    exact ⟨2, rfl⟩
  · obtain rfl := Option.some.inj fatal
    exact ⟨4, rfl⟩
  · obtain rfl := Option.some.inj fatal
    exact ⟨6, rfl⟩
  · obtain rfl := Option.some.inj fatal
    exact ⟨8, rfl⟩
  · obtain rfl := Option.some.inj fatal
    exact ⟨9, rfl⟩
  · obtain rfl := Option.some.inj fatal
    exact ⟨11, rfl⟩

/-- The process would exit with code `-s` exactly when `s` is the first fatal signal that stays pending. -/
theorem Passed.fatal_iff (passed : Passed k id task k₁ after) {s : Nat} :
    (∃ message, SignalFlags.checkError after.signals = some (-(s : Int), message)) ↔ task.FirstFatal s := by
  have pending : ∀ r ∈ fatalSignals, after.signals.getLsbD r = true ↔ task.StaysPending r := by
    intro r fatal
    have other : ¬(r = 18 ∨ r = 19) := by
      intro which
      rcases which with rfl | rfl
      · exact absurd fatal (by decide)
      · exact absurd fatal (by decide)
    rw [passed.bits, TaskControlBlock.StaysPending]
    simp only [other, false_and, not_false_eq_true, true_and]
  rw [checkError_iff, TaskControlBlock.FirstFatal]
  refine and_congr_right fun fatal => ?_
  rw [pending s fatal]
  exact and_congr_right fun _ => forall_congr' fun r => forall_congr' fun fatal => by rw [pending r fatal]

theorem Passed.checked (passed : Passed k id task k₁ after) :
    checkSignalsErrorOfCurrent k₁ = .ok (SignalFlags.checkError after.signals, k₁) := by
  unfold checkSignalsErrorOfCurrent
  rw [run_bind (currentTask_run passed.current), run_bind (innerOf_run passed.found)]
  rfl

/-- The process exits with code `-s` exactly when it leaves `handle_signals` and `s` is the first
fatal signal that stays pending. -/
theorem exitsWith_iff (current : k.current = some id) (found : k.tasks id = some task) (formed : task.SignalsFormed)
    {s : Nat} : k.ExitsWith s ↔ task.KillTakesEffect ∧ task.FirstFatal s := by
  obtain ⟨k₁, after, passed⟩ := pass_run current found formed
  rw [← passed.fatal_iff]
  constructor
  · intro both
    obtain ⟨k₂, k₃, message, left, error⟩ := both
    by_cases leaving : task.KillTakesEffect
    · obtain ⟨_, rfl⟩ := Prod.mk.inj (Except.ok.inj (left.symm.trans (passed.leaves leaving)))
      exact ⟨leaving, message, (Prod.mk.inj (Except.ok.inj (passed.checked.symm.trans error))).1⟩
    · have waits := passed.waits (passed.leaves_iff.not.mpr leaving)
      cases (Prod.mk.inj (Except.ok.inj (left.symm.trans waits))).1
  · intro both
    obtain ⟨leaving, message, error⟩ := both
    exact ⟨k₁, k₁, message, passed.leaves leaving, by rw [passed.checked, error]⟩

/-- At the end of a trap only `SIGKILL` and signals that are neither blocked nor handled make the
process exit, in exactly these states. -/
theorem fatal_signals_spared_iff (current : k.current = some id) (found : k.tasks id = some task) (formed : task.SignalsFormed) :
    (∀ s, k.ExitsWith s → s = 9 ∨ task.signals.getLsbD s = true ∧ task.signalMask.getLsbD s = false ∧
      (task.signalActions.getD s .default).handler = 0) ↔
    (task.KillTakesEffect → ∀ s, task.FirstFatal s → s = 9 ∨ task.signalMask.getLsbD s = false ∧
      (task.signalActions.getD s .default).handler = 0) := by
  constructor
  · intro spared leaves s fatal
    rcases spared s ((exitsWith_iff current found formed).mpr ⟨leaves, fatal⟩) with kill | ⟨_, unblocked⟩
    · exact Or.inl kill
    · exact Or.inr unblocked
  · intro spared s exits
    obtain ⟨leaves, fatal⟩ := (exitsWith_iff current found formed).mp exits
    rcases spared leaves s fatal with kill | unblocked
    · exact Or.inl kill
    · exact Or.inr ⟨fatal.2.1.1, unblocked⟩

end

theorem sigkill_exits_first : ∃ (k : Kernel sample) (task : TaskControlBlock), k.current = some initproc ∧
    k.tasks initproc = some task ∧ SignalFlags.contains task.signals SignalFlags.SIGKILL = true ∧
    ((∃ k₁ exitCode, k₁.current = some initproc ∧ trapTail k = exitCurrentAndRunNext exitCode k₁) ↔
      task.KillTakesEffect) := by
  obtain ⟨s, reachable, current, _⟩ := sample_runs
  obtain ⟨task, found, _⟩ := reachable.sound.running current
  obtain ⟨actions, handling⟩ := (reachable.sound.task found).signals
  have pending : SignalFlags.contains SignalFlags.SIGKILL SignalFlags.SIGKILL = true := by decide
  exact ⟨s.kernel.setTask initproc { task with signals := SignalFlags.SIGKILL }, _, current, Kernel.setTask_same _ _ _,
    pending, sigkill_exits_iff current (Kernel.setTask_same _ _ _) ⟨actions, handling⟩ pending⟩

/-- A child blocks `SIGKILL` and stops itself; then its parent sends it `SIGKILL`. -/
def stopThenKill : List Event :=
  [.schedule 0 [], ecall 220 0 0 0, ecall 124 0 0 0, .schedule 0 [], ecall 135 512 0 0, ecall 129 2 19 0,
    .schedule 0 [], ecall 129 2 9 0, ecall 124 0 0 0]

/-- `SIGKILL` is pending, and the process goes on waiting in the loop of `handle_signals`. -/
theorem sigkill_waits_while_frozen : ∃ s s' : System sample, Reachable s ∧ step (.schedule 0 []) s = .ok ((), s') ∧
    ∃ before after, s.kernel.readyQueue.head? = some 1 ∧ s.kernel.tasks 1 = some before ∧ before.resume = .frozen ∧
      SignalFlags.contains before.signals SignalFlags.SIGKILL = true ∧ s'.kernel.tasks 1 = some after ∧
      after.isZombie = false ∧ after.resume = .frozen ∧ s'.kernel.current = none := by
  have ran : ((run sample stopThenKill).toOption.any fun s => s.kernel.readyQueue.head? == some 1 &&
      ((s.kernel.tasks 1).any fun before => before.resume == .frozen &&
        SignalFlags.contains before.signals SignalFlags.SIGKILL) &&
      ((step (.schedule 0 []) s).toOption.any fun r => r.2.kernel.current == none &&
        ((r.2.kernel.tasks 1).any fun after => !after.isZombie && after.resume == .frozen))) = true := by decide +kernel
  simp only [Option.any_eq_true, toOption_eq_some, Bool.and_eq_true, beq_iff_eq, Bool.not_eq_true'] at ran
  obtain ⟨s, result, ⟨next, before, found, waiting, pending⟩, ⟨_, s'⟩, taken, idle, after, found', alive, still⟩ := ran
  exact ⟨s, s', run_reachable result, taken, before, after, next, found, waiting, pending, found', alive, still, idle⟩

theorem fatal_signals_spared_first : ∃ (k : Kernel sample) (task : TaskControlBlock), k.current = some initproc ∧
    k.tasks initproc = some task ∧ task.signals = SignalFlags.SIGINT ∧
    ((∀ s, k.ExitsWith s → s = 9 ∨ task.signals.getLsbD s = true ∧ task.signalMask.getLsbD s = false ∧
      (task.signalActions.getD s .default).handler = 0) ↔
    (task.KillTakesEffect → ∀ s, task.FirstFatal s → s = 9 ∨ task.signalMask.getLsbD s = false ∧
      (task.signalActions.getD s .default).handler = 0)) := by
  obtain ⟨s, reachable, current, _⟩ := sample_runs
  obtain ⟨task, found, _⟩ := reachable.sound.running current
  obtain ⟨actions, handling⟩ := (reachable.sound.task found).signals
  exact ⟨s.kernel.setTask initproc { task with signals := SignalFlags.SIGINT }, _, current, Kernel.setTask_same _ _ _, rfl,
    fatal_signals_spared_iff current (Kernel.setTask_same _ _ _) ⟨actions, handling⟩⟩

def blockSigint : List Event := [.schedule 0 [], ecall 220 0 0 0, ecall 124 0 0 0, .schedule 0 [], ecall 135 4 0 0]

/-- The child sends itself `SIGINT`, which it blocks, and exits with code -2. -/
theorem blocked_sigint_kills : ∃ s s' : System sample, Reachable s ∧ s.kernel.current = some 1 ∧
    step (ecall 129 2 2 0) s = .ok ((), s') ∧ ∃ before after, s.kernel.tasks 1 = some before ∧
      SignalFlags.contains before.signalMask SignalFlags.SIGINT = true ∧ s'.kernel.tasks 1 = some after ∧
      after.isZombie = true ∧ after.exitCode = -2 := by
  have ran : ((run sample blockSigint).toOption.any fun s => s.kernel.current == some 1 &&
      ((s.kernel.tasks 1).any fun before => SignalFlags.contains before.signalMask SignalFlags.SIGINT) &&
      ((step (ecall 129 2 2 0) s).toOption.any fun r =>
        (r.2.kernel.tasks 1).any fun after => after.isZombie && after.exitCode == -2)) = true := by decide +kernel
  simp only [Option.any_eq_true, toOption_eq_some, Bool.and_eq_true, beq_iff_eq] at ran
  obtain ⟨s, result, ⟨current, before, found, blocked⟩, ⟨_, s'⟩, taken, after, found', zombie, code⟩ := ran
  exact ⟨s, s', run_reachable result, current, taken, before, after, found, blocked, found', zombie, code⟩

end SecureIpc
