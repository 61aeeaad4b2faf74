import SecureIpc.Run.Trace

/-! What a process without root's identity can never do. -/

namespace SecureIpc
open Lib

section
variable {P : Platform} {k k' : Kernel P} {s s' : System P} {uid : Uid}

/-! ### A uid other than root's is kept, and inherited -/

theorem Successor.uid_kept {task task' : TaskControlBlock} (next : Successor k task task')
    (user : task.security.credentials.uid ≠ 0) : task'.security.credentials.uid = task.security.credentials.uid := by
  cases next with
  | credentials changed => exact absurd (setUid_ok changed).1 user
  | _ => rfl

/-- The task `first` and its descendants since the beginning of a run have the uid `uid`. -/
structure Inherits (skip first : Nat) (uid : Uid) (k : Kernel P) : Prop where
  long : skip ≤ k.trace.length
  small : ∀ parent child, (parent, child) ∈ forks (k.trace.drop skip) → parent < k.nextTask
  old : ∀ last, Descends skip k.trace first last → last < k.nextTask
  kept : ∀ last task, Descends skip k.trace first last → k.tasks last = some task → task.security.credentials.uid = uid

theorem Act.inherits {skip first : Nat} (act : Act k k') (sound : Sound k) (user : uid ≠ 0)
    (inherits : Inherits skip first uid k) : Inherits skip first uid k' := by
  have adds := act.adds
  have running : ∀ parent, k.current = some parent → parent < k.nextTask := by
    intro parent current
    obtain ⟨task, found, _⟩ := sound.running current
    exact sound.table.small (table_place found)
  have more := fun last => @Adds.descends P k k' skip first last adds inherits.long inherits.small running
  refine ⟨Nat.le_trans inherits.long adds.length_le, ?_, ?_, ?_⟩
  · intro parent child edge
    rcases adds.forks_eq inherits.long with ⟨same, next⟩ | ⟨forking, current, next, new⟩
    · rw [same] at edge
      rw [next]
      exact inherits.small parent child edge
    · rw [new] at edge
      rw [next]
      rcases List.mem_append.mp edge with before | added
      · exact Nat.lt_succ_of_lt (inherits.small parent child before)
      · obtain ⟨rfl, rfl⟩ := Prod.mk.inj (List.mem_singleton.mp added)
        exact Nat.lt_succ_of_lt (running parent current)
  · intro last descends
    rcases adds.forks_eq inherits.long with ⟨same, next⟩ | ⟨forking, current, next, new⟩
    · rw [next]
      apply inherits.old
      unfold Descends at descends
      rwa [same] at descends
    · rw [next]
      rcases more last descends with before | ⟨_, _, rfl, _⟩
      · exact Nat.lt_succ_of_lt (inherits.old last before)
      · exact Nat.lt_succ_self _
  · intro last task' descends looked
    obtain ⟨origin, task, found, next, place⟩ := act.successor sound.table looked
    have inherited : task.security.credentials.uid = uid := by
      rcases more last descends with before | ⟨parent, current, rfl, before⟩
      · rcases place with rfl | ⟨_, fresh, _⟩
        · exact inherits.kept origin task before found
        · exact absurd (inherits.old last before) (by omega)
      · rcases place with rfl | ⟨current', _⟩
        · exact absurd (sound.table.small (table_place found)) (Nat.lt_irrefl _)
        · obtain rfl := Option.some.inj (current.symm.trans current')
          exact inherits.kept parent task before found
    rw [next.uid_kept (by rw [inherited]; exact user), inherited]

theorem Inherits.note {skip first : Nat} {observation : Observation} (inherits : Inherits skip first uid k)
    (noted : Noted k observation) : Inherits skip first uid (k.observe observation) := by
  have same : forks ((k.observe observation).trace.drop skip) = forks (k.trace.drop skip) := by
    unfold Kernel.observe
    rw [List.drop_append_of_le_length inherits.long, forks, forks, List.filterMap_append]
    cases observation with
    | forked child => exact absurd rfl (noted.not_forked child)
    | _ => cases k.current <;> exact List.append_nil _
  have descent : Descends skip (k.observe observation).trace = Descends skip k.trace := by
    unfold Descends
    rw [same]
  refine ⟨Nat.le_trans inherits.long ?_, ?_, ?_, ?_⟩
  · unfold Kernel.observe
    rw [List.length_append]
    exact Nat.le_add_right _ _
  · rw [same]
    exact inherits.small
  · rw [descent]
    exact inherits.old
  · rw [descent]
    exact inherits.kept

theorem Inherits.setTask {k' : Kernel P} {skip first other : Nat} {task task' : TaskControlBlock}
    (inherits : Inherits skip first uid k) (found : k.tasks other = some task)
    (tasks : k'.tasks = Kernel.set k.tasks other (some task')) (trace : k'.trace = k.trace)
    (next : k'.nextTask = k.nextTask) (same : task'.security = task.security) : Inherits skip first uid k' := by
  obtain ⟨long, small, old, kept⟩ := inherits
  rw [← trace] at long small old kept
  rw [← next] at small old
  refine ⟨long, small, old, fun last next descends looked => ?_⟩
  rw [tasks] at looked
  rcases setTask_cases looked with ⟨rfl, rfl⟩ | ⟨_, before⟩
  · rw [same]
    exact kept last _ descends found
  · exact kept last next descends before

theorem inheritsInv (skip first : Nat) (user : uid ≠ 0) : Invariant (P := P) (Inherits skip first uid) where
  act act sound inherits := act.inherits sound user inherits
  mark marked inherits := by
    obtain ⟨found⟩ := marked
    exact inherits.setTask found rfl rfl rfl rfl
  note noted inherits := inherits.note noted
  resume resumed _ inherits := by
    obtain ⟨_, _, found⟩ := resumed
    exact inherits.setTask found rfl rfl rfl rfl

theorem inherits_start (sound : Sound k) {id : Nat} {task : TaskControlBlock} (found : k.tasks id = some task) :
    Inherits k.trace.length id task.security.credentials.uid k := by
  have alone : forks (k.trace.drop k.trace.length) = [] := by
    rw [List.drop_length]
    rfl
  have self : ∀ last, Descends k.trace.length k.trace id last → last = id := by
    intro last descends
    unfold Descends at descends
    rw [alone] at descends
    cases descends with
    | refl => rfl
    | tail _ edge => cases edge
  refine ⟨Nat.le_refl _, ?_, ?_, ?_⟩
  · intro parent child edge
    rw [alone] at edge
    cases edge
  · intro last descends
    rw [self last descends]
    exact sound.table.small (table_place found)
  · intro last task' descends looked
    rw [self last descends] at looked
    rw [Option.some.inj (found.symm.trans looked)]

/-! ### Signals -/

/-- A process may signal itself, its own user's processes, and any process if it is root. -/
theorem authorize_kill {caller target : TaskControlBlock} {pid : Nat} (confined : caller.security.credentials.Confined)
    (allowed : authorize (killRequest caller target pid) = .ok ()) : caller.pid = pid ∨
      caller.security.credentials.uid = target.security.credentials.uid ∨ caller.security.credentials.uid = 0 := by
  unfold authorize authorizeSignal killRequest at allowed
  dsimp only [TaskControlBlock.subject] at allowed
  split_ifs at allowed with own same root capable
  · exact Or.inl own
  · exact Or.inr (Or.inl same)
  · exact Or.inr (Or.inr root)
  · rcases confined with ⟨isRoot, _⟩ | ⟨_, none⟩
    · exact Or.inr (Or.inr isRoot)
    · rw [none] at capable
      cases capable

theorem sysKill_tasks {p : Nat} {caller : TaskControlBlock} (sound : Sound s.kernel) (current : s.kernel.current = some p)
    (found : s.kernel.tasks p = some caller) {pid : Nat} {signum r : Int} (run : sysKill pid signum s = .ok (r, s')) :
    s'.kernel.tasks = s.kernel.tasks ∨ r = 0 ∧ ∃ target targetTask flag, s.kernel.pid2tcb pid = some target ∧
      s.kernel.tasks target = some targetTask ∧ authorize (killRequest caller targetTask pid) = .ok () ∧
      s'.kernel.tasks = Kernel.set s.kernel.tasks target (some { targetTask with signals := targetTask.signals ||| flag }) := by
  have spec : wp (sysKill pid signum) (fun r s' => s'.kernel.tasks = s.kernel.tasks ∨ r = 0 ∧
      ∃ target targetTask flag, s.kernel.pid2tcb pid = some target ∧ s.kernel.tasks target = some targetTask ∧
        authorize (killRequest caller targetTask pid) = .ok () ∧
        s'.kernel.tasks = Kernel.set s.kernel.tasks target (some { targetTask with signals := targetTask.signals ||| flag }))
      (fun _ => True) s := by
    refine sysKill_rule sound current found pid signum (fun _ => Or.inl rfl) (fun _ _ => Or.inl rfl) ?_ ?_
      fun _ _ _ => trivial
    · intro target targetTask error s₁ _ _ _ _ logged
      exact Or.inl logged.tasks
    · intro target targetTask s₁ _ registered targetFound allowed logged
      have tasks := logged.tasks
      unfold TaskControlBlock.sendSignal at tasks ⊢
      split at tasks
      · rename_i pending
        rw [if_pos pending]
        left
        rw [tasks, setTask_same_task targetFound]
      · rename_i fresh
        rw [if_neg fresh]
        exact Or.inr ⟨rfl, target, targetTask, _, registered, targetFound, allowed, tasks⟩
  have outcome := wp_ok spec run
  exact outcome

/-! ### The log -/

theorem deny_control {subject : IpcSubject} (user : subject.uid ≠ 0) (powerless : subject.capabilities = .empty) :
    checkPermission subject = .error .permissionDenied := by
  unfold checkPermission
  rw [if_neg]
  rw [powerless]
  exact fun reason => reason.elim user (by decide)

theorem finishControlCall_denied (holds : HoldsLog s) (operation : AuditControlOperation) (subject : IpcSubject)
    (requestedAmount : Nat) : wp (finishControlCall operation subject requestedAmount (.error .permissionDenied))
      (fun r _ => r = -1) (fun _ => False) s := by
  apply wp_bind.mpr
  apply wp_bind.mpr
  rw [wp_kernel]
  exact push_rule (fun _ _ => rfl) fun event f failed => holds.push_ne_error event f failed

theorem control_denied {p : Nat} {caller : TaskControlBlock} (reachable : Reachable s)
    (current : s.kernel.current = some p) (found : s.kernel.tasks p = some caller)
    (user : caller.security.credentials.uid ≠ 0) :
    (∀ records capacity afterSequence, ∃ s', sysAuditRead records capacity afterSequence s = .ok (-1, s')) ∧
    ∀ stats outSize flags, ∃ s', sysIpcStat stats outSize flags s = .ok (-1, s') := by
  have powerless : caller.security.credentials.capabilities = .empty := by
    rcases (reachable.sound.task found).confined with ⟨root, _⟩ | ⟨_, none⟩
    · exact absurd root user
    · exact none
  have denied : checkPermission caller.subject = .error .permissionDenied := deny_control user powerless
  refine ⟨?_, ?_⟩
  · intro records capacity afterSequence
    have spec : wp (sysAuditRead records capacity afterSequence) (fun r _ => r = -1) (fun _ => False) s := by
      simp only [sysAuditRead, callerContext, wp_bind, wp_kernel, wp_currentTask, current, wp_innerOf, found, wp_pure,
        readRecords, denied]
      exact finishControlCall_denied reachable.holdsLog _ _ _
    obtain ⟨r, s', run, rfl⟩ := wp_returns spec
    exact ⟨s', run⟩
  · intro stats outSize flags
    have spec : wp (sysIpcStat stats outSize flags) (fun r _ => r = -1) (fun _ => False) s := by
      simp only [sysIpcStat, callerContext, wp_bind, wp_kernel, wp_currentTask, current, wp_innerOf, found, wp_pure,
        readStats, denied]
      exact finishControlCall_denied reachable.holdsLog _ _ _
    obtain ⟨r, s', run, rfl⟩ := wp_returns spec
    exact ⟨s', run⟩

/-! ### All of it -/

theorem user_processes_confined (reachable : Reachable s) :
    (∀ id task, s.kernel.tasks id = some task →
      task.security.credentials.uid = 0 ∧ task.security.credentials.capabilities = .all ∨
      task.security.credentials.uid ≠ 0 ∧ task.security.credentials.capabilities = .empty) ∧
    (∀ s' id task last task', Runs s s' → s.kernel.tasks id = some task → task.security.credentials.uid ≠ 0 →
      Descends s.kernel.trace.length s'.kernel.trace id last → s'.kernel.tasks last = some task' →
      task'.security.credentials.uid = task.security.credentials.uid) ∧
    (∀ p caller, s.kernel.current = some p → s.kernel.tasks p = some caller →
      (∀ pid signum r s', sysKill pid signum s = .ok (r, s') →
        (∀ q before after, s.kernel.tasks q = some before → s'.kernel.tasks q = some after →
          after.signals ≠ before.signals →
          s.kernel.pid2tcb pid = some q ∧ before.isZombie = false ∧ (p = q ∨
            caller.security.credentials.uid = before.security.credentials.uid ∨ caller.security.credentials.uid = 0)) ∧
        (r ≠ 0 → s'.kernel.tasks = s.kernel.tasks)) ∧
      (caller.security.credentials.uid ≠ 0 →
        (∀ records capacity afterSequence, ∃ s', sysAuditRead records capacity afterSequence s = .ok (-1, s')) ∧
        ∀ stats outSize flags, ∃ s', sysIpcStat stats outSize flags s = .ok (-1, s'))) := by
  have sound := reachable.sound
  refine ⟨fun id task found => (sound.task found).confined, ?_, ?_⟩
  · intro s' id task last task' runs found user descends looked
    exact ((inheritsInv _ _ user).runs runs reachable (inherits_start sound found)).kept last task' descends looked
  · intro p caller current found
    refine ⟨?_, control_denied reachable current found⟩
    intro pid signum r s' run
    rcases sysKill_tasks sound current found run with same | ⟨rfl, target, targetTask, flag, registered, targetFound,
      allowed, tasks⟩
    · refine ⟨fun q before after old new changed => ?_, fun _ => same⟩
      rw [same, old] at new
      exact absurd (by rw [Option.some.inj new]) changed
    · refine ⟨fun q before after old new changed => ?_, fun failed => absurd rfl failed⟩
      rw [tasks] at new
      rcases setTask_cases new with ⟨rfl, rfl⟩ | ⟨_, other⟩
      · obtain rfl := Option.some.inj (old.symm.trans targetFound)
        obtain ⟨_, looked, samePid, alive⟩ := sound.table.registered.mp registered
        obtain rfl := Option.some.inj ((table_place targetFound).symm.trans looked)
        refine ⟨registered, alive, ?_⟩
        rcases authorize_kill (sound.task found).confined allowed with own | user
        · exact Or.inl (sound.table.pids (table_place found) (table_place targetFound) (own.trans samePid.symm))
        · exact Or.inr user
      · rw [old] at other
        exact absurd (by rw [Option.some.inj other]) changed

/-- The process of user 7 has no capabilities, cannot kill its parent and cannot read the audit log. -/
theorem user_processes_confined_forked : ∃ (s : System sample) (parent child : TaskControlBlock), Reachable s ∧
    s.kernel.tasks 0 = some parent ∧ s.kernel.current = some 1 ∧ s.kernel.tasks 1 = some child ∧ child.security.credentials.uid = 7 ∧
    child.security.credentials.capabilities = .empty ∧
    (∃ s', sysKill parent.pid 9 s = .ok (-1, s') ∧ s'.kernel.tasks = s.kernel.tasks) ∧ ∃ s', sysAuditRead 0x10000 1 0 s = .ok (-1, s') := by
  obtain ⟨s, parent, child, forked, s', refused⟩ := forkedRun_reaches
  have uid := forked.childUid
  obtain ⟨confined, _, calls⟩ := user_processes_confined forked.reachable
  obtain ⟨kills, controls⟩ := calls 1 child forked.current forked.childFound
  refine ⟨s, parent, child, forked.reachable, forked.parentFound, forked.current, forked.childFound, uid, ?_, ⟨s', refused, ?_⟩, ?_⟩
  · rcases confined 1 child forked.childFound with ⟨root, _⟩ | ⟨_, empty⟩
    · rw [uid] at root
      cases root
    · exact empty
  · exact (kills parent.pid 9 (-1) s' refused).2 (by decide)
  · exact (controls (by rw [uid]; decide)).1 0x10000 1 0

end

end SecureIpc
