import SecureIpc.Guarantees.PipeStreams

/-! Every operation on a pipe is audited once, and its event tells what the caller was told. -/

namespace SecureIpc
open Lib

/-- A system call that returns has been audited as it should be. -/
def Audited (before : Trace) (who : Option Nat) : Observation → Prop
  | .returned value => ∃ id entry since, who = some id ∧ openCall id before = some (entry, since) ∧ Answered entry since value
  | _ => True

section
variable {P : Platform} {s s' : System P}

theorem auditedInv : Invariant (P := P) fun k => True ∧ Along Audited k.trace := by
  refine Invariant.along ⟨⟨fun _ _ _ => trivial, fun _ _ => trivial, fun _ _ => trivial⟩, fun _ _ _ => trivial⟩ ?_ ?_
  · intro k k' act _ _
    rcases act.observes with same | ⟨observation, more, goesOn, _⟩
    · exact Or.inl same
    · refine Or.inr ⟨observation, more, ?_⟩
      cases observation with
      | returned value => simpa [hear] using goesOn (some (⟨0, 0, 0, (0, 0, 0), none⟩, []))
      | _ => trivial
  · intro k observation noted
    cases noted with
    | returned current opened answered => exact ⟨_, _, _, current, opened, answered⟩
    | _ => trivial

/-- In a step from `s` a system call comes to `value`: `syscall` returns it, or a transfer that was suspended goes on and
is completed. -/
inductive Yields (s : System P) (value : Int) (s' : System P) : Prop where
  | call {s₁ : System P} {id : Nat} {task : TaskControlBlock} {syscallId : Nat} {args : Nat × Nat × Nat} (passes : Passes s s₁.kernel)
    (current : s₁.kernel.current = some id) (found : s₁.kernel.tasks id = some task)
    (opened : openCall id s₁.kernel.trace = some (entryOf task syscallId args, [])) (run : syscall syscallId args s₁ = .ok (some value, s'))
  | read {k k' : Kernel P} {now : Nat} {consoleInput : List Nat} {call : PipeCall} {count : Nat} (idle : s.kernel.current = none)
    (started : runNext { s.kernel with now, consoleInput } = .ok (some (.pipeRead call), k))
    (run : pipeReadLoop pipeLoopBound call k = .ok (some count, k'))
    (completed : completeTransfer call.permit count ⟨k', s.auditRing⟩ = .ok (value, s'))
  | write {k k' : Kernel P} {now : Nat} {consoleInput : List Nat} {call : PipeCall} {count : Nat} (idle : s.kernel.current = none)
    (started : runNext { s.kernel with now, consoleInput } = .ok (some (.pipeWrite call), k))
    (run : pipeWriteLoop pipeLoopBound call k = .ok (some count, k'))
    (completed : completeTransfer call.permit count ⟨k', s.auditRing⟩ = .ok (value, s'))

theorem transfer_answers {k k' : Kernel P} {id : Nat} {permit : IpcPermit} {count : Nat} {value : Int} {auditRing : AuditRing}
    {loop : KernelM P (Option Nat)} (sound : Sound k)
    (does : Does loop (fun r k' => ∀ count, r = some count → k'.current = some id ∧ Settled k' id permit.request count) k)
    (run : loop k = .ok (some count, k')) (completed : completeTransfer permit count ⟨k', auditRing⟩ = .ok (value, s')) : Answers id s' value := by
  obtain ⟨acts, back⟩ := wp_ok does run
  obtain ⟨current, settled⟩ := back count rfl
  exact (wp_ok (@completeTransfer_performs P ⟨k', auditRing⟩ id (acts.sound sound) current permit count settled) completed).2

theorem Yields.answers {value : Int} (yields : Yields s value s') (sound : Sound s.kernel) : ∃ id, Answers id s' value := by
  have scheduled : ∀ {now consoleInput point k}, s.kernel.current = none →
      runNext { s.kernel with now, consoleInput } = .ok (some point, k) → ∃ id task, ReadyAt k id task point := by
    intro now consoleInput point k idle started
    exact ((wp_ok (runNext_ready ((Act.environment now consoleInput).sound sound) idle) started).2 point rfl).2
  cases yields with
  | call passes current found opened run =>
    exact ⟨_, (wp_ok (syscall_performs (passes.sound sound) current found _ _ opened) run).2 value rfl⟩
  | read idle started run completed =>
    obtain ⟨id, task, ready⟩ := scheduled idle started
    have does := pipeReadLoop_does ready.sound ready.current ready.found _ ready.known ready.inside ready.flight.1 ready.flight.2
    exact ⟨id, transfer_answers ready.sound does run completed⟩
  | write idle started run completed =>
    obtain ⟨id, task, ready⟩ := scheduled idle started
    have does := pipeWriteLoop_does ready.sound ready.current ready.found _ ready.known ready.inside ready.flight.1 ready.flight.2
    exact ⟨id, transfer_answers ready.sound does run completed⟩

/-- What a call records is in the log, stamped with its sequence number, as long as there are
sequence numbers left; and it tells the value to which the call comes. -/
theorem pipe_operations_audited (reachable : Reachable s) (left : (recorded s.kernel.trace).length ≤ auditLogLimit) :
    Along Audited s.kernel.trace ∧
    s.auditRing.Holds ((recorded s.kernel.trace).mapIdx fun i event => { event with sequence := i + 1 }) ∧
    ∀ value s', Yields s value s' → ∃ id, Answers id s' value := by
  refine ⟨?_, ?_, fun value s' yields => yields.answers reachable.sound⟩
  · exact (auditedInv.reachable (fun k booted => ⟨trivial, by rw [booted.trace]; exact along_nil _⟩) reachable).2
  · have holds := reachable.holdsLog
    rwa [HoldsLog, auditLog, AuditRing.accepted, List.take_of_length_le left] at holds

end

/-- In the sample run the creation of the pipe, the write and the read are audited, and nothing else is. -/
theorem pipedRun_audited : ∃ s : System sample, Reachable s ∧
    (recorded s.kernel.trace).map (fun event => (event.requestedAmount, event.resultValue, event.errno)) =
      [(1, 1, 0), (3, 3, 0), (8, 3, 0)] ∧
    Along Audited s.kernel.trace ∧
    s.auditRing.Holds ((recorded s.kernel.trace).mapIdx fun i event => { event with sequence := i + 1 }) := by
  obtain ⟨s, reachable, _, _, _, _, _, _, events⟩ := pipedRun_reaches
  have few : (recorded s.kernel.trace).length ≤ auditLogLimit := by
    rw [← List.length_map, events]
    decide
  obtain ⟨audited, holds, _⟩ := pipe_operations_audited reachable few
  exact ⟨s, reachable, events, audited, holds⟩

end SecureIpc
