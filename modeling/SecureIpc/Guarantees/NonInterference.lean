import SecureIpc.Lib.Relational
import SecureIpc.Run.Trace

/-!
The audit log does not interfere: two kernels that differ in nothing but their log answer every call
alike, unless the caller may read the log and asks for it.
-/

namespace SecureIpc
open Lib

section
variable {P : Platform} {α : Type} {k : Kernel P} {s t : System P}

/-- The two states differ at most in the log, and both rings hold one. -/
structure SameButLog (s t : System P) : Prop where
  kernel : s.kernel = t.kernel
  left : ∃ log, s.auditRing.Holds log
  right : ∃ log, t.auditRing.Holds log

theorem blind_kernel (p : KernelM P α) : Blind SameButLog (kernel p) :=
  .zoom p (fun _ _ same => same.kernel) fun _ _ _ same => ⟨rfl, same.left, same.right⟩

/-! ### Recording -/

/-- An event is pushed whatever the ring holds, so a caller does not notice. -/
theorem blind_push (event : AuditEvent) : Blind (SameButLog (P := P)) (Audit.push event) := by
  intro s t same
  obtain ⟨log, holds⟩ := same.left
  obtain ⟨log', holds'⟩ := same.right
  obtain ⟨ring, pushed, after⟩ := AuditRing.push_logAfter event holds
  obtain ⟨ring', pushed', after'⟩ := AuditRing.push_logAfter event holds'
  unfold Audit.push
  rw [pushed, pushed', same.kernel]
  exact ⟨rfl, rfl, ⟨_, after⟩, ⟨_, after'⟩⟩

theorem blind_record (request : IpcRequest) (outcome : IpcResult Nat) :
    Blind (SameButLog (P := P)) (Audit.record request outcome) := by
  unfold Audit.record
  split
  · exact .pure ()
  · exact .bind (blind_kernel _) fun _ => blind_push _

theorem blind_controlFailure (operation : AuditControlOperation) (subject : IpcSubject) (requestedAmount : Nat)
    (error : IpcError) : Blind (SameButLog (P := P)) (Audit.recordControlFailure operation subject requestedAmount error) :=
  .bind (blind_kernel _) fun _ => blind_push _

theorem blind_preflight (state : ProcessSecurityState) (request : IpcRequest) :
    Blind (SameButLog (P := P)) (preflight state request) := by
  unfold preflight
  cases authorize request with
  | error error => exact .bind (blind_record _ _) fun _ => .pure _
  | ok =>
    cases Quota.reserve state.quota request with
    | error error => exact .bind (blind_record _ _) fun _ => .pure _
    | ok reserved => exact .pure _

theorem blind_complete (state : ProcessSecurityState) (permit : IpcPermit) (outcome : IpcResult Nat) :
    Blind (SameButLog (P := P)) (complete state permit outcome) :=
  .bind (.lift _) fun _ => .bind (blind_record _ _) fun _ => .pure _

/-! ### Transfers -/

theorem blind_completeTransfer (permit : IpcPermit) (count : Nat) :
    Blind (SameButLog (P := P)) (completeTransfer permit count) := by
  refine .bind (blind_kernel _) fun id => .bind (blind_kernel _) fun inner => ?_
  exact .bind (blind_complete _ _ _) fun completed => .bind (blind_kernel _) fun _ => .pure _

theorem blind_transferPipe (id len : Nat) (request : IpcRequest) (transfer : IpcPermit → KernelM P (Option Nat)) :
    Blind SameButLog (transferPipe id request len transfer) := by
  refine .bind (blind_kernel _) fun inner => .bind (blind_preflight _ _) fun answer => ?_
  cases answer with
  | error error => exact .pure _
  | ok granted =>
    refine .bind (blind_kernel _) fun _ => ?_
    split
    · exact .bind (blind_completeTransfer _ _) fun _ => .pure _
    · refine .bind (blind_kernel _) fun moved => ?_
      cases moved with
      | none => exact .pure _
      | some count => exact .bind (blind_completeTransfer _ _) fun _ => .pure _

theorem blind_rejectBuffer (request : Option IpcRequest) (error : IpcError) :
    Blind (SameButLog (P := P)) (rejectBuffer request error) := by
  cases request with
  | none => exact .pure _
  | some request => exact .bind (blind_record _ _) fun _ => .pure _

theorem blind_sysWrite (fd buf len : Nat) : Blind (SameButLog (P := P)) (sysWrite fd buf len) := by
  refine .bind (blind_kernel _) fun token => .bind (blind_kernel _) fun id => .bind (blind_kernel _) fun inner => ?_
  split
  · exact .pure _
  · split
    · exact .pure _
    · refine .bind (blind_kernel _) fun mem => .bind (blind_kernel _) fun buffer => ?_
      split
      · exact blind_rejectBuffer _ _
      · split
        · exact blind_transferPipe _ _ _ _
        · split
          · exact .pure _
          · exact .bind (blind_kernel _) fun _ => .pure _

theorem blind_sysRead (fd buf len : Nat) : Blind (SameButLog (P := P)) (sysRead fd buf len) := by
  refine .bind (blind_kernel _) fun token => .bind (blind_kernel _) fun id => .bind (blind_kernel _) fun inner => ?_
  split
  · exact .pure _
  · split
    · exact .pure _
    · refine .bind (blind_kernel _) fun mem => .bind (blind_kernel _) fun buffer => ?_
      split
      · exact blind_rejectBuffer _ _
      · split
        · exact blind_transferPipe _ _ _ _
        · split
          · exact .pure _
          · exact .bind (blind_kernel _) fun _ => .pure _

/-! ### The other calls that are audited -/

theorem blind_finishPipe (id readFd writeFd : Nat) (permit : IpcPermit) (copied : IpcResult Unit) :
    Blind (SameButLog (P := P)) (finishPipe id permit readFd writeFd copied) := by
  refine .bind (blind_kernel _) fun inner => ?_
  cases copied with
  | error error => exact .bind (blind_complete _ _ _) fun _ => .bind (blind_kernel _) fun _ => .pure _
  | ok =>
    refine .bind (.lift _) fun registered => .bind (.lift _) fun security => ?_
    exact .bind (blind_complete _ _ _) fun _ => .bind (blind_kernel _) fun _ => .pure _

theorem blind_sysPipe (pipe : Nat) : Blind (SameButLog (P := P)) (sysPipe pipe) := by
  refine .bind (blind_kernel _) fun id => .bind (blind_kernel _) fun token => .bind (blind_kernel _) fun inner => ?_
  refine .bind (blind_preflight _ _) fun answer => ?_
  split
  · exact .pure _
  · refine .bind (blind_kernel _) fun made => ?_
    split
    · exact .bind (blind_complete _ _ _) fun _ => .bind (blind_kernel _) fun _ => .pure _
    · refine .bind (blind_kernel _) fun first => .bind (blind_kernel _) fun second => ?_
      exact .bind (blind_kernel _) fun _ => .bind (blind_kernel _) fun copied => blind_finishPipe _ _ _ _ _

theorem blind_sysKill (pid : Nat) (signum : Int) : Blind (SameButLog (P := P)) (sysKill pid signum) := by
  unfold sysKill
  split
  · exact .pure _
  · split
    · exact .pure _
    · refine .bind (blind_kernel _) fun target => ?_
      split
      · exact .pure _
      · refine .bind (blind_kernel _) fun caller => .bind (blind_kernel _) fun targetInner => .bind (blind_kernel _) fun inner => ?_
        refine .bind (blind_preflight _ _) fun answer => ?_
        split
        · exact .pure _
        · refine .bind (blind_kernel _) fun _ => .bind (blind_kernel _) fun targetInner => .bind (blind_kernel _) fun _ => ?_
          refine .bind (blind_kernel _) fun inner => .bind (blind_complete _ _ _) fun completed => .bind (blind_kernel _) fun _ => ?_
          split <;> exact .pure _

/-! ### Every system call -/

theorem blind_returning (p : KernelM P Int) : Blind SameButLog (returning p) :=
  .bind (blind_kernel p) fun _ => .pure _

/-- No call but those that read the log or its statistics depends on the log. -/
theorem blind_syscall {syscallId : Nat} (args : Nat × Nat × Nat) (read : syscallId ≠ 602) (stat : syscallId ≠ 603) :
    Blind (SameButLog (P := P)) (syscall syscallId args) := by
  obtain ⟨a0, a1, a2⟩ := args
  unfold syscall
  simp only
  split
  case h_4 => exact .bind (blind_sysPipe _) fun _ => .pure _
  case h_5 => exact blind_sysRead _ _ _
  case h_6 => exact blind_sysWrite _ _ _
  case h_7 => exact .bind (blind_kernel _) fun _ => .pure _
  case h_8 => exact .bind (blind_kernel _) fun _ => .pure _
  case h_9 => exact .bind (blind_sysKill _ _) fun _ => .pure _
  case h_20 => exact absurd rfl read
  case h_21 => exact absurd rfl stat
  case h_22 => exact .throw _
  all_goals exact blind_returning _

theorem blind_finishSyscall (result : Option Int) : Blind (SameButLog (P := P)) (finishSyscall result) := by
  cases result with
  | none => exact .pure _
  | some value =>
    refine .bind (blind_kernel _) fun id => .bind (blind_kernel _) fun _ => ?_
    exact .bind (blind_kernel _) fun _ => blind_kernel _

theorem blind_resumeAt (point : KernelPoint) : Blind (SameButLog (P := P)) (resumeAt point) := by
  cases point with
  | user => exact .pure _
  | yielded => exact blind_finishSyscall (some 0)
  | preempted => exact blind_kernel _
  | frozen => exact blind_kernel _
  | pipeRead call =>
    refine .bind (blind_kernel _) fun moved => ?_
    cases moved with
    | none => exact .pure _
    | some count => exact .bind (blind_completeTransfer _ _) fun _ => blind_finishSyscall _
  | pipeWrite call =>
    refine .bind (blind_kernel _) fun moved => ?_
    cases moved with
    | none => exact .pure _
    | some count => exact .bind (blind_completeTransfer _ _) fun _ => blind_finishSyscall _
  | stdinRead buf => exact .bind (blind_kernel _) fun _ => blind_finishSyscall _

/-! ### Callers without the right to read the log -/

/-- The running task is neither root nor has `AUDIT_READ`. -/
def CannotAudit (k : Kernel P) : Prop :=
  ∃ id task, k.current = some id ∧ k.tasks id = some task ∧ task.subject.uid ≠ 0 ∧
    task.subject.capabilities.contains .AUDIT_READ = false

theorem checkPermission_refused {subject : IpcSubject} (other : subject.uid ≠ 0)
    (unable : subject.capabilities.contains .AUDIT_READ = false) : checkPermission subject = .error .permissionDenied := by
  simp [checkPermission, other, unable]

theorem run_callerContext {id : Nat} {task : TaskControlBlock} (current : k.current = some id)
    (found : k.tasks id = some task) : callerContext k = .ok ((task.subject, task.getUserToken), k) := by
  have spec : wp callerContext (fun a k' => a = (task.subject, task.getUserToken) ∧ k' = k) (fun _ => False) k := by
    simp only [callerContext, wp_bind, wp_currentTask, current, wp_innerOf, found, wp_pure, and_self]
  obtain ⟨a, k', run, rfl, rfl⟩ := wp_returns spec
  exact run

theorem blind_finishControlCall (operation : AuditControlOperation) (subject : IpcSubject) (requestedAmount : Nat)
    (outcome : IpcResult Nat) : Blind (SameButLog (P := P)) (finishControlCall operation subject requestedAmount outcome) := by
  cases outcome with
  | ok value => exact .pure _
  | error error => exact .bind (blind_controlFailure _ _ _ _) fun _ => .pure _

/-- A call that looks at the caller first and then at nothing of the log is blind to it. -/
theorem alike_context {rest : IpcSubject × Nat → SystemM P α} {id : Nat} {task : TaskControlBlock}
    (current : s.kernel.current = some id) (found : s.kernel.tasks id = some task) (same : SameButLog s t)
    (blind : Blind SameButLog (rest (task.subject, task.getUserToken))) :
    Alike SameButLog ((kernel callerContext >>= rest) s) ((kernel callerContext >>= rest) t) := by
  have left : kernel callerContext s = .ok ((task.subject, task.getUserToken), s) := by
    unfold kernel Program.zoom
    rw [run_callerContext current found]
  have right : kernel callerContext t = .ok ((task.subject, task.getUserToken), t) := by
    unfold kernel Program.zoom
    rw [run_callerContext (same.kernel ▸ current) (same.kernel ▸ found)]
  rw [run_bind left, run_bind right]
  exact blind s t same

theorem alike_sysAuditRead (cannot : CannotAudit s.kernel) (same : SameButLog s t) (records capacity afterSequence : Nat) :
    Alike SameButLog (sysAuditRead records capacity afterSequence s) (sysAuditRead records capacity afterSequence t) := by
  obtain ⟨id, task, current, found, other, unable⟩ := cannot
  refine alike_context current found same (.bind ?_ fun _ => blind_finishControlCall _ _ _ _)
  unfold readRecords
  rw [checkPermission_refused other unable]
  exact .pure _

theorem alike_sysIpcStat (cannot : CannotAudit s.kernel) (same : SameButLog s t) (stats outSize flags : Nat) :
    Alike SameButLog (sysIpcStat stats outSize flags s) (sysIpcStat stats outSize flags t) := by
  obtain ⟨id, task, current, found, other, unable⟩ := cannot
  refine alike_context current found same (.bind ?_ fun _ => blind_finishControlCall _ _ _ _)
  unfold readStats
  rw [checkPermission_refused other unable]
  exact .pure _

/-- With the logs of any two runs, a system call, and the rest of one that was suspended, ends alike and
leaves the same kernel behind, unless a caller that may read the log asks for it. -/
theorem audit_log_noninterfering {s₁ s₂ : System P} (k : Kernel P) (reachable₁ : Reachable s₁) (reachable₂ : Reachable s₂) :
    (∀ syscallId args, (syscallId ≠ 602 ∧ syscallId ≠ 603) ∨ CannotAudit k →
      Alike SameButLog (syscall syscallId args ⟨k, s₁.auditRing⟩) (syscall syscallId args ⟨k, s₂.auditRing⟩)) ∧
    ∀ point, Alike SameButLog (resumeAt point ⟨k, s₁.auditRing⟩) (resumeAt point ⟨k, s₂.auditRing⟩) := by
  have same : SameButLog ⟨k, s₁.auditRing⟩ ⟨k, s₂.auditRing⟩ := ⟨rfl, ⟨_, reachable₁.holdsLog⟩, ⟨_, reachable₂.holdsLog⟩⟩
  refine ⟨fun syscallId args allowed => ?_, fun point => blind_resumeAt point _ _ same⟩
  by_cases read : syscallId = 602
  · rcases allowed with apart | cannot
    · exact absurd read apart.1
    · subst read
      exact (alike_sysAuditRead cannot same _ _ _).bind fun _ => .pure _
  · by_cases stat : syscallId = 603
    · rcases allowed with apart | cannot
      · exact absurd stat apart.2
      · subst stat
        exact (alike_sysIpcStat cannot same _ _ _).bind fun _ => .pure _
    · exact blind_syscall args read stat _ _ same

end

/-- One run ends with a process that has given up root, the other with a log of one event more; the
process gets the same answer to system call 602. -/
theorem audit_log_noninterfering_sample : ∃ s₁ s₂ : System sample, Reachable s₁ ∧ Reachable s₂ ∧
    CannotAudit s₁.kernel ∧ s₁.auditRing ≠ s₂.auditRing ∧
    Alike SameButLog (syscall 602 (0x10000, 8, 0) s₁) (syscall 602 (0x10000, 8, 0) ⟨s₁.kernel, s₂.auditRing⟩) := by
  have first : ((run sample [.schedule 0 [], ecall 601 1000 0 0]).toOption.any fun s =>
      s.kernel.current == some initproc && (s.kernel.tasks initproc).any (fun task => task.subject.uid == 1000 &&
        !task.subject.capabilities.contains .AUDIT_READ) && s.auditRing.nextSequence == 1) = true := by decide +kernel
  have second : ((run sample [.schedule 0 [], ecall 59 0 0 0]).toOption.any fun s =>
      s.auditRing.nextSequence == 2) = true := by decide +kernel
  simp only [Option.any_eq_true, toOption_eq_some, Bool.and_eq_true, beq_iff_eq, Bool.not_eq_true'] at first second
  obtain ⟨s₁, result₁, ⟨current, task, found, uid, unable⟩, fresh⟩ := first
  obtain ⟨s₂, result₂, used⟩ := second
  have reachable₁ := run_reachable result₁
  have reachable₂ := run_reachable result₂
  have cannot : CannotAudit s₁.kernel := ⟨initproc, task, current, found, uid ▸ (by decide), unable⟩
  have apart : s₁.auditRing ≠ s₂.auditRing := by
    intro same
    rw [same, used] at fresh
    omega
  exact ⟨s₁, s₂, reachable₁, reachable₂, cannot, apart,
    (audit_log_noninterfering s₁.kernel reachable₁ reachable₂).1 602 _ (Or.inr cannot)⟩

end SecureIpc
