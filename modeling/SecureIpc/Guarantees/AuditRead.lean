import SecureIpc.Security.Facade
import SecureIpc.Security.Snapshot

/-! Reading the audit log: what a snapshot contains, and what a reader gets to see. -/

namespace SecureIpc
open Lib

/-- A snapshot of any ring is the requested window: the first retained events after the cursor, at
most 32 and at most as many as asked for, with a gap marked at the first record exactly when an event
after the cursor has been overwritten. Taking it computes without leaving a machine word or an array,
and leaves the ring alone; a reader that goes on after the last record never gets an event again. -/
theorem snapshot_exact (events : List AuditEvent) (afterSequence requestedCapacity : Nat) (word : afterSequence < 2 ^ 64) :
    ∃ ring batch, AuditRing.pushAll .new events = .ok ring ∧ ring.snapshot afterSequence requestedCapacity = .ok batch ∧
      batch.len = min 32 (min requestedCapacity (ring.retainedAfter afterSequence).length) ∧
      (ring.retainedAfter afterSequence).Pairwise (fun a b => a.sequence < b.sequence) ∧
      (∀ i, (batch.recordAt i).isSome = true ↔ i < batch.len) ∧
      (∃ gap : Bool, (gap = true ↔ ∃ event ∈ AuditRing.accepted events,
          afterSequence < event.sequence ∧ event ∉ ring.retained) ∧
        ∀ i < batch.len, ∃ event, (ring.retainedAfter afterSequence)[i]? = some event ∧
          batch.recordAt i = some (event.toRecord (i == 0 && gap))) ∧
      (∀ (P : Platform) (s : System P), s.auditRing = ring →
        Audit.snapshot afterSequence requestedCapacity s = .ok (batch, s)) ∧
      ∀ steps, ∃ records, AuditRing.follow steps ring afterSequence = .ok records ∧
        records.Pairwise fun a b => a.sequence < b.sequence := by
  obtain ⟨ring, pushed, holds⟩ := AuditRing.pushAll_holds events
  obtain ⟨batch, run, len, records⟩ := holds.snapshot_window word requestedCapacity
  have most : auditReadMaxRecords = 32 := rfl
  have complete : batch.records.length = batch.len := by
    rw [records, List.length_mapIdx, List.length_take]
    omega
  refine ⟨ring, batch, pushed, run, len, ?_, ?_, ?_, ?_, ?_⟩
  · rw [holds.retainedAfter_eq]
    exact holds.ascending.drop
  · intro i
    rw [batch.recordAt_eq complete, ← complete]
    simp
  · refine ⟨decide (afterSequence < (AuditRing.accepted events).length - ring.len), ?_, fun i inside => ?_⟩
    · rw [decide_eq_true_eq]
      exact holds.overwritten_iff
    · have retained : i < (ring.retainedAfter afterSequence).length := by omega
      refine ⟨_, List.getElem?_eq_getElem retained, ?_⟩
      rw [batch.recordAt_eq complete, records, List.getElem?_mapIdx, List.getElem?_take_of_lt inside,
        List.getElem?_eq_getElem retained, Option.map_some]
  · rintro P s rfl
    simp only [Audit.snapshot, bind, StateT.bind, Program.read, Except.bind, run]
    rfl
  · intro steps
    obtain ⟨given, follows, _, ascending⟩ := holds.follow_ascending steps word
    exact ⟨given, follows, ascending⟩

/-- A full ring that has lost its first events, read from the beginning. -/
theorem snapshot_exact_start : 0 < 2 ^ 64 ∧ ∃ ring batch,
    AuditRing.pushAll .new (List.replicate 300 .EMPTY) = .ok ring ∧ ring.snapshot 0 40 = .ok batch ∧
      batch.len = min 32 (min 40 (ring.retainedAfter 0).length) := by
  obtain ⟨ring, batch, pushed, run, len, _⟩ := snapshot_exact (List.replicate 300 .EMPTY) 0 40 (by decide)
  exact ⟨by decide, ring, batch, pushed, run, len⟩

end SecureIpc
