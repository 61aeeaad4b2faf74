import SecureIpc.Run.Trace

/-! What is audited, and what is not. -/

namespace SecureIpc
open Lib

section
variable {P : Platform} {s s' : System P}

/-! ### Sending signals -/

/-- The call that returned `r` appended exactly one event, which says what happened. -/
def SendAudited (s : System P) (r : Int) (s' : System P) : Prop :=
  ∃ event, auditLog s' = auditLog s ++ [event] ∧ event.operation = auditOpSignalSend ∧
    (r = 0 ∧ event.errno = 0 ∧ event.resultValue = 1 ∨ r < 0 ∧ event.errno = -r ∧ event.resultValue = 0)

theorem sendAudited_self (r : Int) : ¬SendAudited s r s := by
  rintro ⟨event, same, _⟩
  have length := congrArg List.length same
  rw [List.length_append, List.length_singleton] at length
  omega

theorem HoldsLog.room_iff (holds : HoldsLog s) : s.auditRing.nextSequence < u64Max ↔
    (auditLog s).length < auditLogLimit := by
  have next := holds.next_eq
  have largest : auditLogLimit = u64Max - 1 := rfl
  have maximum : u64Max = 2 ^ 64 - 1 := rfl
  omega

/-- A logged event is appended exactly while there are sequence numbers left. -/
theorem Logged.audited_iff {event : AuditEvent} {r : Int} {base : System P} (logged : Logged base (some event) s')
    (before : auditLog base = auditLog s) (kind : event.operation = auditOpSignalSend)
    (truth : r = 0 ∧ event.errno = 0 ∧ event.resultValue = 1 ∨ r < 0 ∧ event.errno = -r ∧ event.resultValue = 0) :
    SendAudited s r s' ↔ (auditLog s).length < auditLogLimit := by
  have log := logged.log
  rw [before] at log
  unfold AuditRing.logAfter at log
  split at log
  · rename_i room
    refine ⟨fun _ => room, fun _ => ⟨event.stampAfter (auditLog s), log, kind, truth⟩⟩
  · rename_i full
    refine ⟨?_, fun room => absurd room full⟩
    rintro ⟨other, same, _⟩
    rw [log] at same
    have length := congrArg List.length same
    rw [List.length_append, List.length_singleton] at length
    omega

/-- `sys_kill` always returns, and its call is audited as it should be exactly if the signal number is
valid and a live process has the pid, and there are sequence numbers left. -/
theorem kill_audited_iff {caller pid word : Nat} (reachable : Reachable s) (current : s.kernel.current = some caller) :
    ∃ r s', sysKill pid (i32OfWord word) s = .ok (r, s') ∧
      (SendAudited s r s' ↔ 0 ≤ i32OfWord word ∧ i32OfWord word ≤ 31 ∧ s.kernel.pid2tcb pid ≠ none ∧
        s.auditRing.nextSequence < u64Max) := by
  have small : i32OfWord word < 2 ^ 31 := BitVec.toInt_lt
  generalize i32OfWord word = signum at small
  have sound := reachable.sound
  have holds := reachable.holdsLog
  obtain ⟨task, found, _⟩ := sound.running current
  have bounds : validSignal signum ↔ 0 ≤ signum ∧ signum ≤ 31 := by
    unfold validSignal wordOfInt maxSig
    omega
  rw [holds.room_iff, ← and_assoc, ← bounds]
  have spec : wp (sysKill pid signum) (fun r s' => SendAudited s r s' ↔
      validSignal signum ∧ s.kernel.pid2tcb pid ≠ none ∧ (auditLog s).length < auditLogLimit) (fun _ => False) s := by
    refine sysKill_rule sound current found pid signum ?_ ?_ ?_ ?_ fun event f failed => holds.push_ne_error event f failed
    · intro invalid
      exact iff_of_false (sendAudited_self _) fun all => invalid all.1
    · intro _ unregistered
      exact iff_of_false (sendAudited_self _) fun all => all.2.1 unregistered
    · intro target targetTask error s' valid registered _ _ logged
      obtain ⟨code, negative⟩ := ipcErrorToRet_eq error
      rw [logged.audited_iff rfl rfl (Or.inr ⟨negative, ?_, rfl⟩)]
      · simp only [valid, registered, ne_eq, reduceCtorEq, not_false_eq_true, true_and]
      · rw [code, Int.neg_neg]
        rfl
    · intro target targetTask s' valid registered _ _ logged
      have known : (auditLog s).length < auditLogLimit ↔
          validSignal signum ∧ s.kernel.pid2tcb pid ≠ none ∧ (auditLog s).length < auditLogLimit := by
        simp only [valid, registered, ne_eq, reduceCtorEq, not_false_eq_true, true_and]
      rw [← known]
      cases outcome : (targetTask.sendSignal (1 <<< signum.toNat)).2 with
      | ok value =>
        rw [outcome] at logged
        exact logged.audited_iff rfl rfl (Or.inl ⟨rfl, rfl, rfl⟩)
      | error error =>
        rw [outcome] at logged
        obtain ⟨code, negative⟩ := ipcErrorToRet_eq error
        refine logged.audited_iff rfl rfl (Or.inr ⟨negative, ?_, rfl⟩)
        dsimp only
        rw [code, Int.neg_neg]
        rfl
  obtain ⟨r, s', run, audited⟩ := wp_returns spec
  exact ⟨r, s', run, audited⟩

end

theorem kill_audited_first : ∃ s : System sample, Reachable s ∧ ∃ r s', sysKill 1 (i32OfWord 9) s = .ok (r, s') ∧
    (SendAudited s r s' ↔ 0 ≤ i32OfWord 9 ∧ i32OfWord 9 ≤ 31 ∧ s.kernel.pid2tcb 1 ≠ none ∧
      s.auditRing.nextSequence < u64Max) := by
  obtain ⟨s, reachable, current, _⟩ := sample_runs
  exact ⟨s, reachable, kill_audited_iff reachable current⟩

/-- A signal to a pid that nobody has is answered with an error and leaves no event. -/
theorem kill_unregistered_unaudited : ∃ s : System sample, Reachable s ∧ s.kernel.current = some initproc ∧
    sysKill 99 9 s = .ok (-3, s) ∧ ¬SendAudited s (-3) s := by
  obtain ⟨s, reachable, current, unregistered⟩ := sample_runs
  refine ⟨s, reachable, current, ?_, sendAudited_self _⟩
  have looked : (kernel (pid2task 99) : SystemM sample (Option Nat)) s = .ok (none, s) := by
    rw [← unregistered]
    rfl
  unfold sysKill
  rw [if_neg (by decide)]
  simp only [SignalFlags.fromBits, bind, StateT.bind, looked, Except.bind]
  rfl

end SecureIpc
