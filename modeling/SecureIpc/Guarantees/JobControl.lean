import SecureIpc.Guarantees.Signals

/-! `SIGSTOP` and `SIGCONT` sent to a process that handles no other signals meanwhile. -/

namespace SecureIpc
open Lib

/-- What can happen to a process: it is sent `SIGSTOP` or `SIGCONT`, it makes a pass over its pending
signals, or anything else. -/
inductive JobEvent where
  | stop
  | cont
  | pass
  | other
  deriving DecidableEq, Repr

structure JobState where
  cont : Bool
  stop : Bool
  frozen : Bool
  deriving DecidableEq, Repr

/-- A pass handles `SIGCONT`, the smaller number, first. -/
def JobState.after (self : JobState) : JobEvent → JobState
  | .stop => { self with stop := true }
  | .cont => { self with cont := true }
  | .pass => ⟨false, false, self.stop || !self.cont && self.frozen⟩
  | .other => self

theorem JobState.quiet (events : List JobEvent) (self : JobState) (none : ∀ e ∈ events, e = .other) :
    events.foldl after self = self := by
  induction events with
  | nil => rfl
  | cons event rest ih =>
    rw [List.foldl_cons, none event (List.mem_cons_self ..)]
    exact ih fun e mem => none e (List.mem_cons_of_mem _ mem)

/-- Between two sends, what is pending stays pending until a pass, and then nothing is pending. -/
theorem JobState.between (events : List JobEvent) (self : JobState) (noSend : ∀ e ∈ events, e = .pass ∨ e = .other) :
    if .pass ∈ events then (events.foldl after self).stop = false ∧ (events.foldl after self).cont = false
    else events.foldl after self = self := by
  induction events generalizing self with
  | nil => exact if_neg (List.not_mem_nil) ▸ rfl
  | cons event rest ih =>
    have later := ih (self.after event) fun e mem => noSend e (List.mem_cons_of_mem _ mem)
    rw [List.foldl_cons]
    rcases noSend event (List.mem_cons_self ..) with rfl | rfl
    · rw [if_pos (List.mem_cons_self ..)]
      split at later
      · exact later
      · rw [later]
        exact ⟨rfl, rfl⟩
    · simpa [after] using later

section
variable {P : Platform} {s s' : System P} {q pid : Nat}

/-- The control block is in this state: nothing is blocked, no handler runs, and no other signal is pending. -/
structure TaskControlBlock.InJob (task : TaskControlBlock) (job : JobState) : Prop where
  mask : task.signalMask = 0
  handling : task.handlingSig = -1
  bits : ∀ i, task.signals.getLsbD i = (i == 18 && job.cont || i == 19 && job.stop)
  frozen : task.frozen = job.frozen

/-- The kernel does `event` to task `q`, whose process number is `pid`. -/
inductive Happens (q pid : Nat) : JobEvent → System P → System P → Prop where
  | stop {s s' : System P} (registered : s.kernel.pid2tcb pid = some q) (running : s.kernel.current.isSome)
      (sent : sysKill pid 19 s = .ok (0, s')) : Happens q pid .stop s s'
  | cont {s s' : System P} (registered : s.kernel.pid2tcb pid = some q) (running : s.kernel.current.isSome)
      (sent : sysKill pid 18 s = .ok (0, s')) : Happens q pid .cont s s'
  | pass {s : System P} {k : Kernel P} (running : s.kernel.current = some q)
      (passed : checkPendingSignals s.kernel = .ok ((), k)) : Happens q pid .pass s { s with kernel := k }
  | other {s s' : System P} {task task' : TaskControlBlock} (acts : StepActs s s') (before : s.kernel.tasks q = some task)
      (after : s'.kernel.tasks q = some task') (signals : task'.signals = task.signals)
      (mask : task'.signalMask = task.signalMask) (handling : task'.handlingSig = task.handlingSig)
      (frozen : task'.frozen = task.frozen) : Happens q pid .other s s'

inductive Course (q pid : Nat) : List JobEvent → System P → System P → Prop where
  | nil {s : System P} : Course q pid [] s s
  | cons {event : JobEvent} {events : List JobEvent} {s s₁ s' : System P} (first : Happens q pid event s s₁)
      (rest : Course q pid events s₁ s') : Course q pid (event :: events) s s'

def System.InJob (s : System P) (q : Nat) (job : JobState) : Prop :=
  Sound s.kernel ∧ ∃ task, s.kernel.tasks q = some task ∧ task.InJob job

/-! ### The control block follows the abstract state -/

theorem ipcErrorToRet_ne_zero (error : IpcError) : ipcErrorToRet error ≠ 0 := by
  cases error <;> decide

/-- A successful `sys_kill` adds the signal to the pending ones and changes nothing else of the target. -/
theorem sysKill_sent {signum : Int} (sound : Sound s.kernel) (registered : s.kernel.pid2tcb pid = some q)
    (running : s.kernel.current.isSome) (sent : sysKill pid signum s = .ok (0, s')) :
    Sound s'.kernel ∧ ∃ task, s.kernel.tasks q = some task ∧ s'.kernel.tasks q =
      some { task with signals := task.signals ||| ((1 <<< signum.toNat : Nat) : BitVec 32) } := by
  obtain ⟨id, current⟩ := Option.isSome_iff_exists.mp running
  obtain ⟨caller, found, _⟩ := sound.running current
  refine ⟨(wp_ok (sysKill_performs sound current pid signum) sent).1.sound sound, ?_⟩
  have spec : wp (sysKill pid signum) (fun r s' => r = 0 → ∃ task, s.kernel.tasks q = some task ∧ s'.kernel.tasks q =
      some { task with signals := task.signals ||| ((1 <<< signum.toNat : Nat) : BitVec 32) }) (fun _ => True) s := by
    refine sysKill_rule sound current found pid signum ?_ ?_ ?_ ?_ fun _ _ _ => trivial
    · intro _ zero
      exact absurd zero (ipcErrorToRet_ne_zero _)
    · intro _ _ zero
      exact absurd zero (ipcErrorToRet_ne_zero _)
    · intro _ _ error _ _ _ _ _ _ zero
      exact absurd zero (ipcErrorToRet_ne_zero error)
    · intro target task s₁ _ target_is targetFound _ logged zero
      obtain rfl := Option.some.inj (registered.symm.trans target_is)
      refine ⟨task, targetFound, ?_⟩
      rw [logged.tasks]
      by_cases again : SignalFlags.contains task.signals ((1 <<< signum.toNat : Nat) : BitVec 32) = true
      · rw [TaskControlBlock.sendSignal, if_pos again] at zero
        exact absurd zero (ipcErrorToRet_ne_zero _)
      · rw [TaskControlBlock.sendSignal, if_neg again]
        exact Kernel.setTask_same _ _ _
  exact wp_ok spec sent rfl

theorem System.InJob.sends {job job' : JobState} {signum : Int} (injob : s.InJob q job)
    (registered : s.kernel.pid2tcb pid = some q) (running : s.kernel.current.isSome)
    (sent : sysKill pid signum s = .ok (0, s')) (frozen : job'.frozen = job.frozen)
    (bits : ∀ i, (i == 18 && job'.cont || i == 19 && job'.stop) =
      (i == 18 && job.cont || i == 19 && job.stop || decide (signum.toNat < 32) && decide (signum.toNat = i))) :
    s'.InJob q job' := by
  obtain ⟨sound, task, found, injob⟩ := injob
  obtain ⟨sound', before, found', after⟩ := sysKill_sent sound registered running sent
  obtain rfl := Option.some.inj (found.symm.trans found')
  refine ⟨sound', _, after, injob.mask, injob.handling, fun i => ?_, injob.frozen.trans frozen.symm⟩
  dsimp only
  rw [bits i, cast_bit, BitVec.getLsbD_or, BitVec.getLsbD_twoPow, injob.bits i]

theorem TaskControlBlock.InJob.delivers {task : TaskControlBlock} {job : JobState} (injob : task.InJob job) (sig : Nat) :
    task.delivers sig = (sig == 18 && job.cont || sig == 19 && job.stop) := by
  unfold TaskControlBlock.delivers
  rw [injob.mask, injob.handling, injob.bits]
  simp

theorem System.InJob.passes {job : JobState} {k : Kernel P} (injob : s.InJob q job) (running : s.kernel.current = some q)
    (passed : checkPendingSignals s.kernel = .ok ((), k)) : System.InJob { s with kernel := k } q (job.after .pass) := by
  obtain ⟨sound, task, found, injob⟩ := injob
  have acts := (wp_ok (checkPendingSignalsFrom_ends sound running (maxSig + 1) 0) passed).1
  refine ⟨acts.sound sound, ?_⟩
  -- nothing but the two kernel signals is delivered, so the scan meets no user signal
  have user : ∀ sig, task.delivers sig = true → isKernelNumber sig = true := by
    intro sig delivers
    rw [injob.delivers] at delivers
    simp only [Bool.or_eq_true, Bool.and_eq_true, beq_iff_eq] at delivers
    rcases delivers with ⟨rfl, _⟩ | ⟨rfl, _⟩
    · rfl
    · rfl
  have spec : wp checkPendingSignals (fun _ k₁ => k₁ = s.kernel.setTask q (task.scan 32 0).1) (fun _ => False) s.kernel := by
    refine checkPendingSignals_rule running found (sound.task found).signals (fun _ => rfl) ?_
    rintro sig ⟨delivers, notKernel, _⟩
    rw [user sig delivers] at notKernel
    cases notKernel
  obtain rfl := wp_ok spec passed
  obtain ⟨_, frozen, bits⟩ := TaskControlBlock.pass_effect task
  have rest := (TaskControlBlock.scan_scanned 32 0 task).rest
  have handles : ∀ sig, task.handles sig ↔ task.delivers sig = true := fun sig =>
    ⟨fun both => both.1, fun delivers => ⟨delivers, fun j _ => user j⟩⟩
  simp only [handles, injob.delivers, injob.frozen] at frozen bits
  refine ⟨_, Kernel.setTask_same _ _ _, ?_, ?_, fun i => ?_, ?_⟩
  · rw [rest]
    exact injob.mask
  · rw [rest]
    exact injob.handling
  · rw [Bool.eq_iff_iff, bits i, injob.bits i]
    simp only [JobState.after, Bool.or_eq_true, Bool.and_eq_true, beq_iff_eq, Bool.false_eq_true, and_false, or_false,
      iff_false, not_and]
    rintro (⟨rfl, pending⟩ | ⟨rfl, pending⟩) kept
    · exact kept (Or.inl rfl) (Or.inl ⟨rfl, pending⟩)
    · exact kept (Or.inr rfl) (Or.inr ⟨rfl, pending⟩)
  · rw [Bool.eq_iff_iff, frozen]
    simp [JobState.after]

theorem Happens.injob {job : JobState} {event : JobEvent} (happens : Happens q pid event s s') (injob : s.InJob q job) :
    s'.InJob q (job.after event) := by
  cases happens with
  | stop registered running sent =>
    refine injob.sends registered running sent rfl fun i => ?_
    by_cases same : i = 19
    · subst same
      simp [JobState.after]
    · simp [JobState.after, beq_eq_false_iff_ne.mpr same, Ne.symm same]
  | cont registered running sent =>
    refine injob.sends registered running sent rfl fun i => ?_
    by_cases same : i = 18
    · subst same
      simp [JobState.after]
    · simp [JobState.after, beq_eq_false_iff_ne.mpr same, Ne.symm same]
  | pass running passed => exact injob.passes running passed
  | other acts before after signals mask handling frozen =>
    obtain ⟨sound, task, found, injob⟩ := injob
    obtain rfl := Option.some.inj (found.symm.trans before)
    refine ⟨acts.sound sound, _, after, mask.trans injob.mask, handling.trans injob.handling, fun i => ?_,
      frozen.trans injob.frozen⟩
    rw [signals]
    exact injob.bits i

theorem Course.injob {job : JobState} {events : List JobEvent} (course : Course q pid events s s') (injob : s.InJob q job) :
    s'.InJob q (events.foldl JobState.after job) := by
  induction course generalizing job with
  | nil => exact injob
  | cons first rest ih => exact ih (first.injob injob)

def keepsJob (q : Nat) (s s' : System P) : Bool :=
  (s.kernel.tasks q).any fun task => (s'.kernel.tasks q).any fun task' => task'.signals == task.signals &&
    task'.signalMask == task.signalMask && task'.handlingSig == task.handlingSig && task'.frozen == task.frozen

theorem Happens.of_step {event : Event} (sound : Sound s.kernel) (stepped : step event s = .ok ((), s'))
    (keeps : keepsJob q s s' = true) : Happens q pid .other s s' := by
  simp only [keepsJob, Option.any_eq_true, Bool.and_eq_true, beq_iff_eq] at keeps
  obtain ⟨task, before, task', after, ⟨⟨signals, mask⟩, handling⟩, frozen⟩ := keeps
  exact .other (step_acts sound stepped) before after signals mask handling frozen

/-! ### Both signals -/

/-- After both sends and the next pass the process runs on with nothing pending if it made a pass
between the sends; otherwise the pass handles `SIGCONT` first and `SIGSTOP` last. -/
theorem sigcont_takes_effect_iff {early middle late : List JobEvent} {s₁ s₂ s₃ s₄ s₅ s₆ : System P} {task : TaskControlBlock}
    (reachable : Reachable s) (found : s.kernel.tasks q = some task) (mask : task.signalMask = 0)
    (idle : task.handlingSig = -1) (only : ∀ i, task.signals.getLsbD i = true → i = 18 ∨ i = 19)
    (before : Course q pid early s s₁) (stop : Happens q pid .stop s₁ s₂) (between : Course q pid middle s₂ s₃)
    (noSend : ∀ e ∈ middle, e = .pass ∨ e = .other) (cont : Happens q pid .cont s₃ s₄) (after : Course q pid late s₄ s₅)
    (noPass : ∀ e ∈ late, e = .other) (pass : Happens q pid .pass s₅ s₆) :
    (∃ last, s₆.kernel.tasks q = some last ∧ last.frozen = false ∧
      SignalFlags.contains last.signals SignalFlags.SIGCONT = false ∧
      SignalFlags.contains last.signals SignalFlags.SIGSTOP = false) ↔ .pass ∈ middle := by
  let job : JobState := ⟨task.signals.getLsbD 18, task.signals.getLsbD 19, task.frozen⟩
  have start : s.InJob q job := by
    refine ⟨reachable.sound, task, found, mask, idle, fun i => ?_, rfl⟩
    rw [Bool.eq_iff_iff]
    constructor
    · intro pending
      rcases only i pending with rfl | rfl
      · simp [job, pending]
      · simp [job, pending]
    · intro either
      simp only [job, Bool.or_eq_true, Bool.and_eq_true, beq_iff_eq] at either
      rcases either with ⟨rfl, pending⟩ | ⟨rfl, pending⟩
      · exact pending
      · exact pending
  obtain ⟨_, last, found', injob⟩ := pass.injob (after.injob (cont.injob (between.injob (stop.injob (before.injob start)))))
  rw [JobState.quiet late _ noPass] at injob
  have middle_effect := JobState.between middle ((early.foldl JobState.after job).after .stop) noSend
  generalize middle.foldl JobState.after ((early.foldl JobState.after job).after .stop) = sent at injob middle_effect
  have cleared : SignalFlags.contains last.signals SignalFlags.SIGCONT = false ∧
      SignalFlags.contains last.signals SignalFlags.SIGSTOP = false := by
    constructor
    · exact (contains_bit (by decide)).trans ((injob.bits 18).trans rfl)
    · exact (contains_bit (by decide)).trans ((injob.bits 19).trans rfl)
  have frozen : last.frozen = sent.stop := by
    rw [injob.frozen]
    simp [JobState.after]
  constructor
  · rintro ⟨other, looked, running, _⟩
    obtain rfl := Option.some.inj (found'.symm.trans looked)
    by_contra never
    rw [if_neg never] at middle_effect
    rw [frozen, middle_effect] at running
    cases running
  · intro passed
    rw [if_pos passed] at middle_effect
    exact ⟨last, found', frozen.trans middle_effect.1, cleared⟩

end

/-- The first process stops and continues itself, with a pass in between. -/
theorem sigcont_takes_effect_self : ∃ s s₁ s₃ s₄ s₆ : System sample, Reachable s ∧ Happens initproc 1 .stop s s₁ ∧
    Course initproc 1 [.pass] s₁ s₃ ∧ Happens initproc 1 .cont s₃ s₄ ∧ Happens initproc 1 .pass s₄ s₆ ∧
    ((∃ last, s₆.kernel.tasks initproc = some last ∧ last.frozen = false ∧
      SignalFlags.contains last.signals SignalFlags.SIGCONT = false ∧
      SignalFlags.contains last.signals SignalFlags.SIGSTOP = false) ↔ JobEvent.pass ∈ [JobEvent.pass]) := by
  have ran : ((run sample [.schedule 0 []]).toOption.any fun s => s.kernel.current == some initproc &&
      s.kernel.pid2tcb 1 == some initproc &&
      ((s.kernel.tasks initproc).any fun task => task.signalMask == 0 && task.handlingSig == -1 && task.signals == 0) &&
      ((sysKill 1 19 s).toOption.any fun r₁ => r₁.1 == 0 && r₁.2.kernel.current == some initproc &&
      ((checkPendingSignals r₁.2.kernel).toOption.any fun r₃ => r₃.2.current == some initproc &&
        r₃.2.pid2tcb 1 == some initproc &&
      ((sysKill 1 18 { r₁.2 with kernel := r₃.2 }).toOption.any fun r₄ => r₄.1 == 0 &&
        r₄.2.kernel.current == some initproc &&
        (checkPendingSignals r₄.2.kernel).toOption.isSome)))) = true := by decide +kernel
  simp only [Option.any_eq_true, toOption_eq_some, Bool.and_eq_true, beq_iff_eq, Option.isSome_iff_exists] at ran
  obtain ⟨s, result, ⟨⟨current, registered⟩, task, found, ⟨mask, idle⟩, none⟩, ⟨_, s₁⟩, sent, ⟨rfl, current₁⟩,
    ⟨_, k₃⟩, passed, ⟨current₃, registered₃⟩, ⟨_, s₄⟩, sent', ⟨rfl, current₄⟩, ⟨_, k₆⟩, passed'⟩ := ran
  have stop : Happens initproc 1 .stop s s₁ := .stop registered (Option.isSome_of_eq_some current) sent
  have between : Course initproc 1 [.pass] s₁ { s₁ with kernel := k₃ } := .cons (.pass current₁ passed) .nil
  have cont : Happens initproc 1 .cont { s₁ with kernel := k₃ } s₄ :=
    .cont registered₃ (Option.isSome_of_eq_some current₃) sent'
  have pass : Happens initproc 1 .pass s₄ { s₄ with kernel := k₆ } := .pass current₄ passed'
  refine ⟨s, s₁, _, s₄, _, run_reachable result, stop, between, cont, pass, ?_⟩
  refine sigcont_takes_effect_iff (run_reachable result) found mask idle (fun i pending => ?_) .nil stop between (by simp) cont .nil
    (by simp) pass
  rw [none] at pending
  simp at pending

/-- The first process sends both signals to its child before the child runs; the child's pass freezes it. -/
theorem sigcont_lost : ∃ s s' : System sample, Reachable s ∧ Course 1 2 [.stop, .cont, .other, .other, .pass] s s' ∧
    ∃ child last, s.kernel.tasks 1 = some child ∧ child.signalMask = 0 ∧ child.handlingSig = -1 ∧ child.signals = 0 ∧
      child.frozen = false ∧ s'.kernel.tasks 1 = some last ∧ last.frozen = true := by
  have ran : ((run sample [.schedule 0 [], ecall 220 0 0 0]).toOption.any fun s => s.kernel.current.isSome &&
      s.kernel.pid2tcb 2 == some 1 &&
      ((s.kernel.tasks 1).any fun child => child.signalMask == 0 && child.handlingSig == -1 && child.signals == 0 &&
        !child.frozen) &&
      ((sysKill 2 19 s).toOption.any fun r₁ => r₁.1 == 0 && r₁.2.kernel.current.isSome && r₁.2.kernel.pid2tcb 2 == some 1 &&
      ((sysKill 2 18 r₁.2).toOption.any fun r₂ => r₂.1 == 0 &&
      ((step (ecall 124 0 0 0) r₂.2).toOption.any fun r₃ => keepsJob 1 r₂.2 r₃.2 &&
      ((step (.schedule 0 []) r₃.2).toOption.any fun r₄ => keepsJob 1 r₃.2 r₄.2 && r₄.2.kernel.current == some 1 &&
      ((checkPendingSignals r₄.2.kernel).toOption.any fun r₅ => (r₅.2.tasks 1).any fun last => last.frozen)))))) = true := by
    decide +kernel
  simp only [Option.any_eq_true, toOption_eq_some, Bool.and_eq_true, beq_iff_eq, Bool.not_eq_true'] at ran
  obtain ⟨s, result, ⟨⟨current, registered⟩, child, found, ⟨⟨mask, idle⟩, none⟩, thawed⟩, ⟨_, s₁⟩, sent,
    ⟨⟨rfl, current₁⟩, registered₁⟩, ⟨_, s₂⟩, sent', rfl, ⟨_, s₃⟩, yielded, kept, ⟨_, s₄⟩, scheduled, ⟨kept', current₄⟩,
    ⟨_, k₅⟩, passed, last, found', frozen⟩ := ran
  have reachable := run_reachable result
  have sound₁ := (sysKill_sent reachable.sound registered current sent).1
  have sound₂ := (sysKill_sent sound₁ registered₁ current₁ sent').1
  have sound₃ := (step_acts sound₂ yielded).sound sound₂
  refine ⟨s, { s₄ with kernel := k₅ }, reachable, ?_, child, last, found, mask, idle, none, thawed, found', frozen⟩
  refine .cons (.stop registered current sent) (.cons (.cont registered₁ current₁ sent') ?_)
  exact .cons (.of_step sound₂ yielded kept) (.cons (.of_step sound₃ scheduled kept') (.cons (.pass current₄ passed) .nil))

end SecureIpc
