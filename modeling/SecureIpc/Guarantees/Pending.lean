import SecureIpc.Guarantees.Signals
import SecureIpc.Run.Quiet

/-! Signals that are never handled: they hide later ones, and `SIGDEF` marks a process that goes on running. -/

namespace SecureIpc
open Lib

/-! ### The first handler -/

namespace TaskControlBlock

variable {task : TaskControlBlock} {n sig : Nat}

/-- The user signal `sig` is pending, not blocked, and has a handler. -/
def catches (self : TaskControlBlock) (sig : Nat) : Bool :=
  self.delivers sig && !isKernelNumber sig && (self.signalActions.getD sig .default).handler != 0

def FirstCaught (self : TaskControlBlock) (n : Nat) : Prop := self.catches n = true ∧ ∀ m < n, self.catches m = false

instance (self : TaskControlBlock) (n : Nat) : Decidable (self.FirstCaught n) := inferInstanceAs (Decidable (_ ∧ _))

theorem catches_iff : task.catches sig = true ↔
    task.delivers sig = true ∧ isKernelNumber sig = false ∧ (task.signalActions.getD sig .default).handler ≠ 0 := by
  simp [catches, and_assoc]

theorem starts.handles_iff (starts : task.starts n) (kernel : isKernelNumber sig = true) :
    task.handles sig ↔ sig < n ∧ task.delivers sig = true := by
  obtain ⟨delivers, user, reaches, _⟩ := starts
  constructor
  · intro both
    obtain ⟨delivered, before⟩ := both
    refine ⟨?_, delivered⟩
    rcases Nat.lt_trichotomy sig n with less | same | greater
    · exact less
    · rw [same, user] at kernel
      cases kernel
    · rw [before n greater delivers] at user
      cases user
  · intro both
    obtain ⟨less, delivered⟩ := both
    exact ⟨delivered, fun j smaller => reaches j (Nat.lt_trans smaller less)⟩

theorem FirstCaught.starts_iff (first : task.FirstCaught n) : task.starts n ↔
    ∀ j < n, task.delivers j = true → isKernelNumber j = false → (task.signalActions.getD j .default).handler ≠ 0 := by
  obtain ⟨delivers, user, handler⟩ := catches_iff.mp first.1
  constructor
  · intro both j less delivered notKernel
    obtain ⟨_, _, reaches, _⟩ := both
    rw [reaches j less delivered] at notKernel
    cases notKernel
  · intro handled
    refine ⟨delivers, user, fun j less delivered => ?_, handler⟩
    cases kernel : isKernelNumber j with
    | true => rfl
    | false =>
      have caught := catches_iff.mpr ⟨delivered, kernel, handled j less delivered kernel⟩
      rw [first.2 j less] at caught
      cases caught

end TaskControlBlock

section
variable {P : Platform} {k k₁ k' : Kernel P} {s s' : System P} {id n : Nat} {task after : TaskControlBlock}

/-- A pass delivers the user signal `n` to the running task, and handles the kernel signals below it. -/
structure Delivers (k : Kernel P) (id : Nat) (task : TaskControlBlock) (n : Nat) (k₁ : Kernel P) (after : TaskControlBlock) :
    Prop where
  run : checkPendingSignals k = .ok ((), k₁)
  found : k₁.tasks id = some after
  handling : after.handlingSig = n
  saved : after.trapCtxBackup = some (.load k.mm.mem task.trapCxPpn)
  sepc : (TrapContext.load k₁.mm.mem after.trapCxPpn).sepc = (task.signalActions.getD n .default).handler % 2 ^ 64
  argument : (TrapContext.load k₁.mm.mem after.trapCxPpn).x.getD 10 0 = n
  killed : after.killed = true ↔ task.killed = true ∨ task.delivers 0 = true ∨ 9 < n ∧ task.delivers 9 = true
  frozen : after.frozen = true ↔ (19 < n ∧ task.delivers 19 = true) ∨
    ¬(18 < n ∧ task.delivers 18 = true) ∧ task.frozen = true
  bits : ∀ i, after.signals.getLsbD i = true ↔
    task.signals.getLsbD i = true ∧ i ≠ n ∧ ¬((i = 18 ∨ i = 19) ∧ i < n ∧ task.delivers i = true)

theorem load_word (mem : PhysMem) (ppn : Nat) {word : Nat} (small : word < 32) :
    (TrapContext.load mem ppn).x.getD word 0 = mem.readWord (TrapContext.wordAddr ppn word) := by
  unfold TrapContext.load
  rw [List.getD_eq_getElem?_getD, List.getElem?_map, List.getElem?_range small]
  rfl

theorem starts_delivers (current : k.current = some id) (found : k.tasks id = some task) (formed : task.SignalsFormed)
    (starts : task.starts n) : ∃ k₁ after, Delivers k id task n k₁ after := by
  obtain ⟨killed, frozen, bits⟩ := TaskControlBlock.pass_effect task
  have small : n < 32 := BitVec.lt_of_getLsbD (TaskControlBlock.delivers_pending starts.1)
  have spec : wp checkPendingSignals (fun _ k₁ => checkPendingSignals k = .ok ((), k₁) → ∃ after, Delivers k id task n k₁ after)
      (fun _ => False) k := by
    refine checkPendingSignals_rule current found formed (fun none => absurd starts (none n)) ?_
    intro user begun run
    obtain rfl := (TaskControlBlock.starts_unique starts).mp begun
    have rest := (TaskControlBlock.scan_scanned 32 0 task).rest
    have page : (task.scan 32 0).1.trapCxPpn = task.trapCxPpn := by rw [rest]
    have pending : (task.scan 32 0).1.signals.getLsbD user = true := by
      refine (bits user).mpr ⟨TaskControlBlock.delivers_pending starts.1, ?_⟩
      intro both
      obtain ⟨which, _⟩ := both
      rcases which with rfl | rfl
      · cases starts.2.1
      · cases starts.2.1
    refine ⟨_, run, Kernel.setTask_same _ _ _, rfl, ?_, ?_, ?_, ?_, ?_, ?_⟩
    · show some (TrapContext.load k.mm.mem (task.scan 32 0).1.trapCxPpn) = _
      rw [page]
    · show Memory.readWord (task.enterHandler user _ k.mm.mem)
        (TrapContext.wordAddr (task.scan 32 0).1.trapCxPpn TrapContext.sepcWord) = _
      rw [page, TaskControlBlock.enterHandler, readWord_setWord, if_neg (by decide), readWord_setWord, if_pos rfl]
    · show (TrapContext.load (task.enterHandler user _ k.mm.mem) (task.scan 32 0).1.trapCxPpn).x.getD 10 0 = user
      rw [load_word _ _ (by decide), page, TaskControlBlock.enterHandler, readWord_setWord, if_pos rfl]
      exact Nat.mod_eq_of_lt (by omega)
    · rw [starts.handles_iff rfl, starts.handles_iff rfl] at killed
      refine killed.trans (or_congr_right (or_congr_left (and_iff_right_of_imp fun _ => ?_)))
      exact Nat.pos_of_ne_zero fun zero => by rw [zero] at starts; cases starts.2.1
    · rw [starts.handles_iff rfl, starts.handles_iff rfl] at frozen
      exact frozen
    · intro i
      unfold TaskControlBlock.delivered
      rw [cast_bit, TaskControlBlock.xor_bit pending, Bool.and_eq_true, bits i]
      have handled : (i = 18 ∨ i = 19) ∧ task.handles i ↔ (i = 18 ∨ i = 19) ∧ i < user ∧ task.delivers i = true := by
        refine and_congr_right fun which => ?_
        rcases which with rfl | rfl
        · exact starts.handles_iff rfl
        · exact starts.handles_iff rfl
      rw [handled]
      simp only [Bool.not_eq_true', beq_eq_false_iff_ne]
      exact and_assoc.trans (and_congr_right fun _ => and_comm)
  obtain ⟨_, k₁, run, delivered⟩ := wp_returns spec
  exact ⟨k₁, delivered run⟩

/-- The lowest user signal that has a handler and is not blocked is delivered exactly when no signal
without a handler stands before it. -/
theorem lowest_handled_delivered_iff (current : k.current = some id) (found : k.tasks id = some task)
    (formed : task.SignalsFormed) (first : task.FirstCaught n) :
    (∃ k₁ after, Delivers k id task n k₁ after) ↔ ∀ j < n, task.delivers j = true → isKernelNumber j = false →
      (task.signalActions.getD j .default).handler ≠ 0 := by
  rw [← first.starts_iff]
  constructor
  · intro ⟨k₁, after, delivered⟩
    obtain ⟨k₂, after₂, passed⟩ := pass_run current found formed
    obtain ⟨_, rfl⟩ := Prod.mk.inj (Except.ok.inj (passed.run.symm.trans delivered.run))
    obtain rfl := Option.some.inj (passed.found.symm.trans delivered.found)
    by_contra others
    obtain ⟨delivers, user, _⟩ := TaskControlBlock.catches_iff.mp first.1
    have still : after₂.signals.getLsbD n = true := by
      refine (passed.bits n).mpr ⟨TaskControlBlock.delivers_pending delivers, ?_, others⟩
      intro ⟨which, _⟩
      rcases which with rfl | rfl
      · cases user
      · cases user
    exact ((delivered.bits n).mp still).2.1 rfl
  · exact starts_delivers current found formed

end

def installHandler : List Event := [.schedule 0 [], .store 0x10000 1, ecall 134 10 0x10000 0x10020]

theorem lowest_handled_delivered_first : ∃ (k : Kernel sample) (task : TaskControlBlock), k.current = some initproc ∧
    k.tasks initproc = some task ∧ task.FirstCaught 10 ∧ ((∃ k₁ after, Delivers k initproc task 10 k₁ after) ↔
      ∀ j < 10, task.delivers j = true → isKernelNumber j = false → (task.signalActions.getD j .default).handler ≠ 0) := by
  have ran : ((run sample installHandler).toOption.any fun s => s.kernel.current == some initproc &&
      (s.kernel.tasks initproc).any fun task =>
        decide (TaskControlBlock.FirstCaught { task with signals := BitVec.twoPow 32 10 } 10)) = true := by decide +kernel
  simp only [Option.any_eq_true, toOption_eq_some, Bool.and_eq_true, beq_iff_eq, decide_eq_true_eq] at ran
  obtain ⟨s, result, current, task, found, first⟩ := ran
  obtain ⟨actions, handling⟩ := ((run_reachable result).sound.task found).signals
  exact ⟨s.kernel.setTask initproc { task with signals := BitVec.twoPow 32 10 }, _, current, Kernel.setTask_same _ _ _, first,
    lowest_handled_delivered_iff current (Kernel.setTask_same _ _ _) ⟨actions, handling⟩ first⟩

/-- With `SIGHUP` pending and ignored, `SIGUSR1` is not delivered although it has a handler. -/
theorem sighup_hides_sigusr1 : ∃ (s : System sample) (task : TaskControlBlock), Reachable s ∧
    s.kernel.current = some initproc ∧ s.kernel.tasks initproc = some task ∧ task.FirstCaught 10 ∧
    ∃ k₁ after, checkPendingSignals s.kernel = .ok ((), k₁) ∧ k₁.tasks initproc = some after ∧
      after.signals.getLsbD 10 = true ∧ after.handlingSig = -1 ∧
      ¬∃ k₂ after₂, Delivers s.kernel initproc task 10 k₂ after₂ := by
  have ran : ((run sample (installHandler ++ [ecall 129 1 1 0, ecall 129 1 10 0])).toOption.any fun s =>
      s.kernel.current == some initproc && ((s.kernel.tasks initproc).any fun task => decide (task.FirstCaught 10)) &&
      ((checkPendingSignals s.kernel).toOption.any fun r => (r.2.tasks initproc).any fun after =>
        after.signals.getLsbD 10 && after.handlingSig == -1)) = true := by decide +kernel
  simp only [Option.any_eq_true, toOption_eq_some, Bool.and_eq_true, beq_iff_eq, decide_eq_true_eq] at ran
  obtain ⟨s, result, ⟨current, task, found, first⟩, ⟨_, k₁⟩, passed, after, found₁, pending, idle⟩ := ran
  refine ⟨s, task, run_reachable result, current, found, first, k₁, after, passed, found₁, pending, idle, ?_⟩
  intro ⟨k₂, after₂, delivered⟩
  obtain ⟨_, rfl⟩ := Prod.mk.inj (Except.ok.inj (passed.symm.trans delivered.run))
  obtain rfl := Option.some.inj (found₁.symm.trans delivered.found)
  exact ((delivered.bits 10).mp pending).2.1 rfl

section
variable {P : Platform} {k k₁ k' : Kernel P} {s s' : System P} {id : Nat} {task after : TaskControlBlock}

/-! ### Marked processes -/

/-- No process is marked that was not marked before. -/
def Spares (k k' : Kernel P) : Prop := ∀ other task', k'.tasks other = some task' → task'.isZombie = false →
  task'.killed = true → ∃ task, k.tasks other = some task ∧ task.isZombie = false ∧ task.killed = true

theorem Spares.trans {k₂ : Kernel P} (first : Spares k k₁) (second : Spares k₁ k₂) : Spares k k₂ := by
  intro other task' looked alive marked
  obtain ⟨task₁, looked₁, alive₁, marked₁⟩ := second other task' looked alive marked
  exact first other task₁ looked₁ alive₁ marked₁

theorem Spares.same (tasks : k'.tasks = k.tasks) : Spares k k' := by
  intro other task' looked alive marked
  exact ⟨task', by rw [← tasks]; exact looked, alive, marked⟩

theorem Spares.setTask (found : k.tasks id = some task) (tasks : k'.tasks = Kernel.set k.tasks id (some after))
    (killed : after.killed = task.killed) (zombie : after.isZombie = false → task.isZombie = false) : Spares k k' := by
  intro other task' looked alive marked
  rw [tasks] at looked
  rcases setTask_cases looked with ⟨rfl, rfl⟩ | ⟨_, old⟩
  · exact ⟨task, found, zombie alive, killed ▸ marked⟩
  · exact ⟨task', old, alive, marked⟩

theorem Successor.spares {task' : TaskControlBlock} (next : Successor k task task') (alive : task'.isZombie = false)
    (marked : task'.killed = true) : task.isZombie = false ∧ task.killed = true := by
  cases next with
  | scheduled _ _ _ _ living => exact ⟨living, marked⟩
  | exited => cases alive
  | forked => cases marked
  | _ => exact ⟨alive, marked⟩

theorem Act.spares (act : Act k k') (formed : k.table.WellFormed) : Spares k k' := by
  intro other task' looked alive marked
  obtain ⟨id, task, found, next, place⟩ := act.successor formed looked
  obtain ⟨living, before⟩ := next.spares alive marked
  rcases place with rfl | ⟨_, _, unmarked⟩
  · exact ⟨task, found, living, before⟩
  · rw [unmarked] at marked
    cases marked

theorem Acts.spares (acts : Acts k k') (sound : Sound k) : Spares k k' := by
  induction acts with
  | refl => exact .same rfl
  | tail before act ih => exact ih.trans (act.spares (Acts.sound before sound).table)

theorem TrapActs.spares (acts : TrapActs s s') (sound : Sound s.kernel) : Spares s.kernel s'.kernel := by
  induction acts with
  | refl => exact .same rfl
  | tail before next ih =>
    rcases next.cases with act | ⟨_, _, same⟩
    · exact ih.trans (act.spares (TrapActs.sound before sound).table)
    · exact ih.trans (.same (by rw [same]; rfl))

theorem Resumed.spares (resumed : Resumed k k') (formed : k.table.WellFormed) : Spares k k' := by
  obtain ⟨idle, queue, found⟩ := resumed
  have first : k.table.readyQueue = _ := queue
  have alive := formed.queue_live (by rw [first]; exact List.mem_cons_self) (table_place found)
  exact .setTask found rfl rfl fun _ => alive

theorem started_spares {now : Nat} {consoleInput : List Nat}
    (started : k' = { k with now, consoleInput } ∨ Resumed { k with now, consoleInput } k') (sound : Sound k) : Spares k k' := by
  rcases started with rfl | resumed
  · exact .same rfl
  · have prepared : Act k { k with now, consoleInput } := .environment now consoleInput
    have unchanged : Spares k { k with now, consoleInput } := .same rfl
    exact unchanged.trans (resumed.spares (prepared.sound sound).table)

/-- No process is marked as killed, except one that has exited. -/
def Kernel.Unmarked (self : Kernel P) : Prop :=
  ∀ id task, self.tasks id = some task → task.isZombie = false → task.killed = false

theorem Spares.unmarked (spares : Spares k k') (unmarked : k.Unmarked) : k'.Unmarked := by
  intro id task looked alive
  cases marked : task.killed with
  | false => rfl
  | true =>
    obtain ⟨before, found, living, killed⟩ := spares id task looked alive marked
    rw [unmarked id before found living] at killed
    cases killed

/-! ### The end of a trap -/

theorem trapTail_result (passed : Passed k id task k₁ after) (ended : trapTail k = .ok ((), k')) :
    (¬task.KillTakesEffect ∧ k' = k₁.suspended id after .frozen) ∨
    (task.KillTakesEffect ∧ (∃ s, task.FirstFatal s) ∧ ∃ exitCode, exitCurrentAndRunNext exitCode k₁ = .ok ((), k')) ∨
    (task.KillTakesEffect ∧ (∀ s, ¬task.FirstFatal s) ∧ k' = k₁) := by
  by_cases effect : task.KillTakesEffect
  · cases fatal : SignalFlags.checkError after.signals with
    | none =>
      refine Or.inr (Or.inr ⟨effect, fun s first => ?_, ?_⟩)
      · obtain ⟨message, error⟩ := passed.fatal_iff.mpr first
        rw [fatal] at error
        cases error
      · have returned : trapTail k = .ok ((), k₁) := by
          unfold trapTail
          rw [run_bind (passed.leaves effect), if_pos rfl, run_bind passed.checked, fatal]
          rfl
        exact (Prod.mk.inj (Except.ok.inj (ended.symm.trans returned))).2
    | some error =>
      obtain ⟨s, code⟩ := checkError_code fatal
      have first : task.FirstFatal s := passed.fatal_iff.mp ⟨error.2, by rw [fatal, ← code]⟩
      rw [trapTail_exits (passed.leaves effect) passed.current passed.found fatal] at ended
      exact Or.inr (Or.inl ⟨effect, ⟨s, first⟩, error.1, ended⟩)
  · have waits := trapTail_waits (passed.waits (passed.leaves_iff.not.mpr effect))
    exact Or.inl ⟨effect, (Prod.mk.inj (Except.ok.inj (ended.symm.trans waits))).2⟩

/-- The running process does not have `SIGDEF` delivered, unless it exits because of another signal. -/
def Kernel.SparesSigdef (self : Kernel P) : Prop := ∀ id task, self.current = some id → self.tasks id = some task →
  task.delivers 0 = true → ∃ s, task.FirstFatal s

theorem handles_sigdef : task.handles 0 ↔ task.delivers 0 = true :=
  and_iff_left fun j less => absurd less (Nat.not_lt_zero j)

theorem handles_sigkill_fatal (passed : Passed k id task k₁ after) (handles : task.handles 9) : ∃ s, task.FirstFatal s := by
  have pending : after.signals.getLsbD 9 = true := by
    refine (passed.bits 9).mpr ⟨TaskControlBlock.delivers_pending handles.1, by omega, ?_⟩
    intro both
    obtain ⟨_, notKernel, _⟩ := both
    cases notKernel
  obtain ⟨error, fatal⟩ := checkError_sigkill pending
  obtain ⟨s, code⟩ := checkError_code fatal
  exact ⟨s, passed.fatal_iff.mp ⟨error.2, by rw [fatal, ← code]⟩⟩

theorem trapTail_unmarked (sound : Sound k) (current : k.current = some id) (found : k.tasks id = some task)
    (ended : trapTail k = .ok ((), k')) (unmarked : k.Unmarked) (spares : k.SparesSigdef) : k'.Unmarked := by
  obtain ⟨living, found', alive⟩ := sound.running current
  obtain rfl := Option.some.inj (found.symm.trans found')
  obtain ⟨k₁, after, passed⟩ := pass_run current found (sound.task found).signals
  have sound₁ : Sound k₁ := (wp_ok (checkPendingSignalsFrom_ends sound current (maxSig + 1) 0) passed.run).1.sound sound
  have others : ∀ other task', other ≠ id → k₁.tasks other = some task' → task'.isZombie = false → task'.killed = false := by
    intro other task' different looked
    rw [passed.tasks, Kernel.set_other different] at looked
    exact unmarked other task' looked
  rcases trapTail_result passed ended with ⟨waits, rfl⟩ | ⟨_, _, exitCode, exits⟩ | ⟨_, none, rfl⟩
  · intro other task' looked living
    rcases setTask_cases looked with ⟨_, rfl⟩ | ⟨different, old⟩
    · have clean : ¬after.killed = true := by
        intro marked
        exact waits (by
          rcases passed.killed.mp marked with killed | handled | handled
          · exact Or.inl killed
          · exact Or.inr (Or.inl handled)
          · exact Or.inr (Or.inr (Or.inl handled)))
      exact Bool.not_eq_true _ ▸ clean
    · exact others other task' different old living
  · have acts := (wp_ok (exitCurrentAndRunNext_does sound₁ passed.current exitCode) exits).1
    obtain ⟨last, looked, zombie⟩ := wp_ok (exit_zombie passed.current exitCode) exits
    intro other task' looked' living
    by_contra marked
    obtain ⟨before, old, alive₁, killed⟩ := acts.spares sound₁ other task' looked' living (Bool.not_eq_false _ ▸ marked)
    by_cases same : other = id
    · subst same
      obtain rfl := Option.some.inj (looked.symm.trans looked')
      rw [living] at zombie
      cases zombie
    · rw [others other before same old alive₁] at killed
      cases killed
  · intro other task' looked living
    by_cases same : other = id
    · subst same
      obtain rfl := Option.some.inj (passed.found.symm.trans looked)
      by_contra marked
      rcases passed.killed.mp (Bool.not_eq_false _ ▸ marked) with killed | handled | handled
      · rw [unmarked other task found alive] at killed
        cases killed
      · obtain ⟨s, fatal⟩ := spares other task current found (handles_sigdef.mp handled)
        exact none s fatal
      · obtain ⟨s, fatal⟩ := handles_sigkill_fatal passed handled
        exact none s fatal
    · exact others other task' same looked living

/-! ### Runs -/

/-- A run from boot: the states it goes through, the last one first. -/
inductive History : List (System P) → Prop where
  | booted {s : System P} (booted : boot P = .ok s) : History [s]
  | step {s s' : System P} {before : List (System P)} (history : History (s :: before)) (event : Event)
      (stepped : step event s = .ok ((), s')) : History (s' :: s :: before)

/-- The step from `s` to `s'` ends a trap, and the signals are looked at in state `k`. -/
def TrapEnds (s s' : System P) (k : Kernel P) : Prop :=
  ∃ now consoleInput k₀ s₁ id, (k₀ = { s.kernel with now, consoleInput } ∨ Resumed { s.kernel with now, consoleInput } k₀) ∧
    TrapActs { s with kernel := k₀ } s₁ ∧ s₁.kernel = k ∧ k.current = some id ∧ trapTail k = .ok ((), s'.kernel)

/-- No process runs in user mode that is marked as killed, and a process that is sent `SIGSTOP`, and
neither `SIGDEF` nor `SIGKILL` with it, stops. -/
structure NeverResumesKilled (states : List (System P)) : Prop where
  running : ∀ s ∈ states, ∀ id task, s.kernel.current = some id → s.kernel.tasks id = some task → task.killed = false
  stops : ∀ step ∈ states.zip states.tail, ∀ k, TrapEnds step.2 step.1 k → ∀ id task, k.current = some id →
    k.tasks id = some task → task.handles 19 → ¬task.handles 0 → ¬task.handles 9 → ∃ k', handleSignals k = .ok (false, k')

variable {states : List (System P)}

theorem History.reachable (history : History states) : ∀ s ∈ states, Reachable s := by
  induction history with
  | booted booted => simpa using Reachable.boot booted
  | step _ event stepped ih =>
    intro s member
    rcases List.mem_cons.mp member with rfl | old
    · exact (ih _ List.mem_cons_self).step event stepped
    · exact ih s old

theorem Reachable.exists_history (reachable : Reachable s) : ∃ before, History (s :: before) := by
  induction reachable with
  | boot booted => exact ⟨[], .booted booted⟩
  | step _ event stepped ih =>
    obtain ⟨before, history⟩ := ih
    exact ⟨_, .step history event stepped⟩

theorem TrapEnds.before (ends : TrapEnds s s' k) (sound : Sound s.kernel) : Sound k ∧ Spares s.kernel k := by
  obtain ⟨now, consoleInput, k₀, s₁, id, started, acts, rfl, _⟩ := ends
  have sound₀ := started_sound sound started
  exact ⟨acts.sound sound₀, (started_spares started sound).trans (TrapActs.spares acts sound₀)⟩

theorem zip_tail_mem {step : System P × System P} (member : step ∈ states.zip states.tail) :
    step.1 ∈ states ∧ step.2 ∈ states := by
  obtain ⟨first, second⟩ := List.of_mem_zip member
  exact ⟨first, List.mem_of_mem_tail second⟩

/-- While `SIGDEF` is never delivered to a process that goes on, no process is marked at all. -/
theorem History.unmarked (history : History states)
    (spares : ∀ step ∈ states.zip states.tail, ∀ k, TrapEnds step.2 step.1 k → k.SparesSigdef) :
    ∀ s ∈ states, s.kernel.Unmarked := by
  induction history with
  | booted booted =>
    obtain ⟨task, tasks, _, _, _, _, _, _, _, _, _, _, unmarked⟩ := (boot_booted booted).1.tasks
    intro s member id task' looked _
    obtain rfl := List.mem_singleton.mp member
    rw [tasks] at looked
    rcases setTask_cases looked with ⟨_, rfl⟩ | ⟨_, none⟩
    · exact unmarked
    · cases none
  | @step s s' before history event stepped ih =>
    have earlier := ih fun step member => spares step (List.mem_cons_of_mem _ member)
    intro t member
    rcases List.mem_cons.mp member with rfl | old
    · have sound := (history.reachable s List.mem_cons_self).sound
      have unmarked := earlier s List.mem_cons_self
      obtain ⟨now, consoleInput, k₀, started, finishes⟩ := step_acts sound stepped
      have sound₀ := started_sound sound started
      cases finishes with
      | quiet acts => exact ((started_spares started sound).trans (TrapActs.spares acts sound₀)).unmarked unmarked
      | @tail s₁ id k' acts current ended =>
        have ends : TrapEnds s { s₁ with kernel := k' } s₁.kernel :=
          ⟨now, consoleInput, k₀, s₁, id, started, acts, rfl, current, ended⟩
        obtain ⟨sound₁, spared⟩ := ends.before sound
        obtain ⟨task, found, _⟩ := sound₁.running current
        exact trapTail_unmarked sound₁ current found ended (spared.unmarked unmarked) (spares _ List.mem_cons_self _ ends)
    · exact earlier t old

/-- A run keeps killed processes from going on exactly if `SIGDEF` is never delivered to a process
that no other signal makes exit. -/
theorem killed_never_resumes_iff (history : History states) : NeverResumesKilled states ↔
    ∀ step ∈ states.zip states.tail, ∀ k, TrapEnds step.2 step.1 k → k.SparesSigdef := by
  constructor
  · intro holds step member k ends id task current found delivers
    obtain ⟨after₁, before₁⟩ := zip_tail_mem member
    obtain ⟨sound, _⟩ := ends.before (history.reachable _ before₁).sound
    obtain ⟨_, _, _, _, _, _, _, _, _, ended⟩ := ends
    obtain ⟨k₁, after, passed⟩ := pass_run current found (sound.task found).signals
    have handled := handles_sigdef.mpr delivers
    rcases trapTail_result passed ended with ⟨waits, _⟩ | ⟨_, fatal, _⟩ | ⟨_, _, returned⟩
    · exact absurd (Or.inr (Or.inl handled)) waits
    · exact fatal
    · have marked := passed.killed.mpr (Or.inr (Or.inl handled))
      rw [holds.running _ after₁ id after (returned ▸ passed.current) (returned ▸ passed.found)] at marked
      cases marked
  · intro spares
    have unmarked := history.unmarked spares
    constructor
    · intro s member id task current found
      obtain ⟨running, found', alive⟩ := (history.reachable s member).sound.running current
      obtain rfl := Option.some.inj (found.symm.trans found')
      exact unmarked s member id task found alive
    · intro step member k ends id task current found stop noSigdef noSigkill
      obtain ⟨_, before₁⟩ := zip_tail_mem member
      obtain ⟨sound, spared⟩ := ends.before (history.reachable _ before₁).sound
      obtain ⟨running, found', alive⟩ := sound.running current
      obtain rfl := Option.some.inj (found.symm.trans found')
      obtain ⟨k₁, after, passed⟩ := pass_run current found (sound.task found).signals
      have clean : ¬task.killed = true := by
        rw [spared.unmarked (unmarked _ before₁) id task found alive]
        exact Bool.false_ne_true
      have waits : ¬task.KillTakesEffect := by
        simp [TaskControlBlock.KillTakesEffect, clean, noSigdef, noSigkill, stop]
      exact ⟨_, passed.waits (passed.leaves_iff.not.mpr waits)⟩

end

/-- The child of the first process sends itself `SIGKILL`, and exits at the end of that trap. -/
theorem killed_never_resumes_child : ∃ (s s' : System sample) (before : List (System sample)), History (s' :: s :: before) ∧
    s.kernel.current = some 1 ∧ step (ecall 129 2 9 0) s = .ok ((), s') ∧
    (∃ child, s'.kernel.tasks 1 = some child ∧ child.isZombie = true ∧ child.exitCode = -9) ∧
    (NeverResumesKilled (s' :: s :: before) ↔
      ∀ step ∈ (s' :: s :: before).zip (s :: before), ∀ k, TrapEnds step.2 step.1 k → k.SparesSigdef) := by
  have ran : ((run sample forkedRun).toOption.any fun s => s.kernel.current == some 1 &&
      (step (ecall 129 2 9 0) s).toOption.any fun r => (r.2.kernel.tasks 1).any fun child => child.isZombie && child.exitCode == -9) = true := by
    decide +kernel
  simp only [Option.any_eq_true, toOption_eq_some, Bool.and_eq_true, beq_iff_eq] at ran
  obtain ⟨s, result, current, ⟨_, s'⟩, stepped, killed⟩ := ran
  obtain ⟨before, earlier⟩ := (run_reachable result).exists_history
  have history : History (s' :: s :: before) := .step earlier _ stepped
  exact ⟨s, s', before, history, current, stepped, killed, killed_never_resumes_iff history⟩

/-- The first process sends itself `SIGDEF` and goes on running, marked as killed; then `SIGSTOP` does not stop it. -/
theorem sigdef_marks_running : ∃ s s' : System sample, Reachable s ∧ s.kernel.current = some initproc ∧
    (∃ task, s.kernel.tasks initproc = some task ∧ task.killed = true) ∧ step (ecall 129 1 19 0) s = .ok ((), s') ∧
    s'.kernel.current = some initproc ∧ ∃ task, s'.kernel.tasks initproc = some task ∧ task.frozen = true := by
  have ran : ((run sample [.schedule 0 [], ecall 129 1 0 0]).toOption.any fun s => s.kernel.current == some initproc &&
      ((s.kernel.tasks initproc).any fun task => task.killed) &&
      ((step (ecall 129 1 19 0) s).toOption.any fun r => r.2.kernel.current == some initproc &&
        ((r.2.kernel.tasks initproc).any fun task => task.frozen))) = true := by decide +kernel
  simp only [Option.any_eq_true, toOption_eq_some, Bool.and_eq_true, beq_iff_eq] at ran
  obtain ⟨s, result, ⟨current, marked⟩, ⟨_, s'⟩, stepped, still, frozen⟩ := ran
  exact ⟨s, s', run_reachable result, current, marked, stepped, still, frozen⟩

end SecureIpc
