import SecureIpc.Security.Audit
import SecureIpc.Lib.Circular
import Mathlib.Data.List.Induction

/-!
The audit ring refines an unbounded log. `AuditRing.Holds ring log` ties the slots, the sequence
numbers and the counters of a ring to the list of all events it has accepted; `push` extends the
log by one stamped event until the sequence numbers run out, and then changes nothing.
-/

namespace SecureIpc
open Lib

/-- The number of events a ring accepts before its sequence numbers are exhausted. -/
def auditLogLimit : Nat := u64Max - 1

/-- `event` with the sequence number of the entry after `log`. -/
def AuditEvent.stampAfter (log : List AuditEvent) (event : AuditEvent) : AuditEvent :=
  { event with sequence := log.length + 1 }

/-- The ring's state after the events of `log` have been accepted. -/
structure AuditRing.Holds (ring : AuditRing) (log : List AuditEvent) : Prop where
  slots : ring.events.length = auditRingCapacity
  head_lt : ring.head < auditRingCapacity
  len_eq : ring.len = min log.length auditRingCapacity
  window_eq : Circular.window ring.events .EMPTY ring.head ring.len = log.drop (log.length - ring.len)
  stamped : ∀ i event, log[i]? = some event → event.sequence = i + 1
  next_eq : ring.nextSequence = log.length + 1
  total_eq : ring.totalEvents = log.length
  successful_eq : ring.successfulEvents = log.countP fun event => event.errno = 0
  failed_eq : ring.failedEvents = log.countP fun event => event.errno ≠ 0
  overwritten_eq : ring.overwrittenEvents = log.length - ring.len
  limit : log.length ≤ auditLogLimit

namespace AuditRing
variable {ring : AuditRing} {log : List AuditEvent}

theorem new_holds : new.Holds [] where
  slots := List.length_replicate
  head_lt := by decide
  len_eq := rfl
  window_eq := rfl
  stamped := by simp
  next_eq := rfl
  total_eq := rfl
  successful_eq := rfl
  failed_eq := rfl
  overwritten_eq := rfl
  limit := by simp

theorem stamped_append {event : AuditEvent}
    (stamped : ∀ i event, log[i]? = some event → event.sequence = i + 1) :
    ∀ i entry, (log ++ [event.stampAfter log])[i]? = some entry → entry.sequence = i + 1 := by
  intro i entry found
  rcases Nat.lt_trichotomy i log.length with before | last | beyond
  · rw [List.getElem?_append_left before] at found
    exact stamped i entry found
  · rw [last, List.getElem?_concat_length] at found
    obtain rfl := Option.some.inj found
    rw [last]
    rfl
  · rw [List.getElem?_eq_none (by simp; omega)] at found
    exact absurd found (by simp)

theorem store_free {event : AuditEvent} (slots : ring.events.length = auditRingCapacity)
    (head_lt : ring.head < auditRingCapacity) (room : ring.len < auditRingCapacity) :
    ring.store event = .ok { ring with
      events := ring.events.set ((ring.head + ring.len) % ring.events.length) event, len := ring.len + 1 } := by
  have capacity : auditRingCapacity = 256 := rfl
  have inside : (ring.head + ring.len) % auditRingCapacity < ring.events.length := by
    rw [slots]; exact Nat.mod_lt _ (by decide)
  rw [store, if_pos room, addWord_ok (by omega), addWord_ok (by omega)]
  simp only [bind, Except.bind, setIndex_ok inside, pure, Except.pure, slots]

theorem store_full {event : AuditEvent} (slots : ring.events.length = auditRingCapacity)
    (head_lt : ring.head < auditRingCapacity) (full : ¬ ring.len < auditRingCapacity)
    (bounded : ring.overwrittenEvents < u64Max) :
    ring.store event = .ok { ring with
      events := ring.events.set ring.head event
      head := (ring.head + 1) % ring.events.length
      overwrittenEvents := ring.overwrittenEvents + 1 } := by
  have capacity : auditRingCapacity = 256 := rfl
  have largest : u64Max = 2 ^ 64 - 1 := rfl
  rw [store, if_neg full, addWord_ok (by omega), addWord_ok (by omega)]
  simp only [bind, Except.bind, setIndex_ok (slots ▸ head_lt), pure, Except.pure, slots]

theorem store_window {event : AuditEvent} (slots : ring.events.length = auditRingCapacity)
    (head_lt : ring.head < auditRingCapacity) (len_eq : ring.len = min log.length auditRingCapacity)
    (windowed : Circular.window ring.events .EMPTY ring.head ring.len = log.drop (log.length - ring.len))
    (overwritten : ring.overwrittenEvents = log.length - ring.len) (room : log.length < auditLogLimit) :
    ∃ stored, ring.store event = .ok stored ∧
      stored.events.length = auditRingCapacity ∧ stored.head < auditRingCapacity ∧
      stored.len = min (log.length + 1) auditRingCapacity ∧
      Circular.window stored.events .EMPTY stored.head stored.len =
        (log ++ [event]).drop (log.length + 1 - stored.len) ∧
      stored.overwrittenEvents = log.length + 1 - stored.len ∧
      stored.nextSequence = ring.nextSequence ∧ stored.totalEvents = ring.totalEvents ∧
      stored.successfulEvents = ring.successfulEvents ∧ stored.failedEvents = ring.failedEvents := by
  have capacity : auditRingCapacity = 256 := rfl
  have largest : auditLogLimit = 2 ^ 64 - 2 := rfl
  have maximum : u64Max = 2 ^ 64 - 1 := rfl
  by_cases free : ring.len < auditRingCapacity
  · -- fill phase: nothing has been overwritten yet, so the window is the whole log
    rw [show log.length - ring.len = 0 by omega, List.drop_zero] at windowed
    refine ⟨_, store_free slots head_lt free, by simpa using slots, head_lt, ?_, ?_, ?_, rfl, rfl, rfl, rfl⟩
    · show ring.len + 1 = _
      omega
    · show Circular.window (ring.events.set _ event) .EMPTY ring.head (ring.len + 1) = _
      rw [Circular.window_push (by omega), windowed, show log.length + 1 - (ring.len + 1) = 0 by omega,
        List.drop_zero]
    · show ring.overwrittenEvents = log.length + 1 - (ring.len + 1)
      omega
  · -- overwrite phase: the oldest retained event leaves the window
    have full : ring.len = ring.events.length := by omega
    rw [full] at windowed
    refine ⟨_, store_full slots head_lt free (by omega), by simpa using slots,
      by rw [slots]; exact Nat.mod_lt _ (by decide), ?_, ?_, ?_, rfl, rfl, rfl, rfl⟩
    · show ring.len = _
      omega
    · show Circular.window (ring.events.set ring.head event) .EMPTY ((ring.head + 1) % ring.events.length)
        ring.len = _
      rw [full, Circular.window_overwrite (by omega), windowed, List.tail_drop,
        List.drop_append_of_le_length (by omega)]
      congr 2
      omega
    · show ring.overwrittenEvents + 1 = log.length + 1 - ring.len
      omega

/-- An accepted event extends the log by one entry. -/
theorem push_holds {event : AuditEvent} (holds : ring.Holds log) (room : log.length < auditLogLimit) :
    ∃ pushed, ring.push event = .ok pushed ∧ pushed.Holds (log ++ [event.stampAfter log]) := by
  have largest : auditLogLimit = 2 ^ 64 - 2 := rfl
  have next := holds.next_eq
  have total := holds.total_eq
  have successful := holds.successful_eq
  have failed := holds.failed_eq
  have successes : ring.successfulEvents ≤ log.length := successful ▸ List.countP_le_length
  have failures : ring.failedEvents ≤ log.length := failed ▸ List.countP_le_length
  have fresh : checkedAdd ring.nextSequence 1 = some (log.length + 2) := by
    rw [checkedAdd_eq_some]; omega
  have stamp : { event with sequence := ring.nextSequence } = event.stampAfter log := by
    rw [AuditEvent.stampAfter, next]
  obtain ⟨stored, run, slots, head_lt, len_eq, window_eq, overwritten, nextStored, totalStored,
    successfulStored, failedStored⟩ :=
    @store_window { ring with nextSequence := log.length + 2 } log (event.stampAfter log)
      holds.slots holds.head_lt holds.len_eq holds.window_eq holds.overwritten_eq room
  have appended : (log ++ [event.stampAfter log]).length = log.length + 1 := by simp
  have errno : (event.stampAfter log).errno = event.errno := rfl
  have total' : stored.totalEvents = log.length := totalStored.trans total
  have successful' : stored.successfulEvents = ring.successfulEvents := successfulStored
  have failed' : stored.failedEvents = ring.failedEvents := failedStored
  rw [push, fresh]
  simp only [stamp, run, bind, Except.bind, addWord_ok (show stored.totalEvents + 1 < 2 ^ 64 by omega)]
  by_cases ok : event.errno = 0
  · simp only [if_pos ok, addWord_ok (show stored.successfulEvents + 1 < 2 ^ 64 by omega), pure, Except.pure]
    refine ⟨_, rfl, slots, head_lt, by rw [appended]; exact len_eq, by rw [appended]; exact window_eq,
      stamped_append holds.stamped, by rw [appended]; exact nextStored, by rw [appended, total'], ?_, ?_,
      by rw [appended]; exact overwritten, by omega⟩
    · simp [List.countP_append, errno, ok, successful', successful]
    · simp [List.countP_append, errno, ok, failed', failed]
  · simp only [if_neg ok, addWord_ok (show stored.failedEvents + 1 < 2 ^ 64 by omega), pure, Except.pure]
    refine ⟨_, rfl, slots, head_lt, by rw [appended]; exact len_eq, by rw [appended]; exact window_eq,
      stamped_append holds.stamped, by rw [appended]; exact nextStored, by rw [appended, total'], ?_, ?_,
      by rw [appended]; exact overwritten, by omega⟩
    · simp [List.countP_append, errno, ok, successful', successful]
    · simp [List.countP_append, errno, ok, failed', failed]

/-- Once the sequence numbers are exhausted, `push` changes nothing. -/
theorem push_exhausted {event : AuditEvent} (exhausted : u64Max ≤ ring.nextSequence) :
    ring.push event = .ok ring := by
  have maximum : u64Max = 2 ^ 64 - 1 := rfl
  have none : checkedAdd ring.nextSequence 1 = none := by
    unfold checkedAdd; rw [if_neg (by omega)]
  rw [push, none]

def logAfter (log : List AuditEvent) (event : AuditEvent) : List AuditEvent :=
  if log.length < auditLogLimit then log ++ [event.stampAfter log] else log

/-- `push` never stops the kernel, whatever the event and however far the log has grown. -/
theorem push_logAfter (event : AuditEvent) (holds : ring.Holds log) :
    ∃ pushed, ring.push event = .ok pushed ∧ pushed.Holds (logAfter log event) := by
  unfold logAfter
  split
  · rename_i room
    exact push_holds holds room
  · rename_i full
    have next := holds.next_eq
    have largest : auditLogLimit = u64Max - 1 := rfl
    exact ⟨ring, push_exhausted (by omega), holds⟩

/-- The retained events are the last `len` entries of the log. -/
theorem Holds.slot {i : Nat} (holds : ring.Holds log) (inside : i < ring.len) :
    ring.events[(ring.head + i) % auditRingCapacity]? = log[log.length - ring.len + i]? := by
  have len_eq := holds.len_eq
  have windowed := congrArg (fun entries => entries[i]?) holds.window_eq
  simp only [Circular.window_getElem? inside, List.getElem?_drop, holds.slots] at windowed
  have cell : (ring.head + i) % auditRingCapacity < ring.events.length := by
    rw [holds.slots]; exact Nat.mod_lt _ (by decide)
  rw [← windowed, List.getD, List.getElem?_eq_getElem cell, Option.getD_some]

theorem Holds.firstSequence_eq (holds : ring.Holds log) :
    ring.firstSequence = .ok (ring.nextSequence - ring.len) := by
  have len_eq := holds.len_eq
  have next := holds.next_eq
  unfold firstSequence
  split
  · rename_i none
    rw [none, Nat.sub_zero]
  · rename_i some
    have first := holds.slot (show 0 < ring.len by omega)
    rw [Nat.add_zero, Nat.mod_eq_of_lt holds.head_lt, Nat.add_zero] at first
    have cell : ring.head < ring.events.length := by rw [holds.slots]; exact holds.head_lt
    rw [List.getElem?_eq_getElem cell] at first
    have sequence := holds.stamped _ _ first.symm
    simp only [getIndex_ok cell, bind, Except.bind, pure, Except.pure, sequence]
    congr 1
    omega

theorem Holds.stats_eq (holds : ring.Holds log) :
    ring.stats = .ok { capacity := auditRingCapacity, retained := ring.len
                       firstSequence := ring.nextSequence - ring.len, nextSequence := ring.nextSequence
                       totalEvents := ring.totalEvents, successfulEvents := ring.successfulEvents
                       failedEvents := ring.failedEvents, overwrittenEvents := ring.overwrittenEvents } := by
  simp only [stats, holds.firstSequence_eq, bind, Except.bind, pure, Except.pure]

def pushAll (ring : AuditRing) (events : List AuditEvent) : Except Fault AuditRing :=
  events.foldlM push ring

/-- The events of a sequence of pushes that a new ring accepts, with their sequence numbers: all of
them, up to the last one before the numbers are exhausted. -/
def accepted (events : List AuditEvent) : List AuditEvent :=
  (events.take auditLogLimit).mapIdx fun i event => { event with sequence := i + 1 }

theorem accepted_append (events : List AuditEvent) (event : AuditEvent) :
    accepted (events ++ [event]) = logAfter (accepted events) event := by
  have size : (accepted events).length = min auditLogLimit events.length := by simp [accepted]
  unfold logAfter
  split
  · rename_i room
    have short : events.length < auditLogLimit := by omega
    have numbered : (accepted events).length = events.length := by omega
    rw [AuditEvent.stampAfter, numbered]
    unfold accepted
    rw [List.take_of_length_le (by simp; omega), List.take_of_length_le (by omega), List.mapIdx_append]
    simp
  · rename_i full
    unfold accepted
    rw [List.take_append_of_le_length (by omega)]

theorem pushAll_holds (events : List AuditEvent) :
    ∃ ring, pushAll new events = .ok ring ∧ ring.Holds (accepted events) := by
  induction events using List.reverseRecOn with
  | nil => exact ⟨new, rfl, new_holds⟩
  | append_singleton events event ih =>
    obtain ⟨ring, run, holds⟩ := ih
    obtain ⟨pushed, step, holds⟩ := push_logAfter event holds
    refine ⟨pushed, ?_, by rw [accepted_append]; exact holds⟩
    unfold pushAll at run ⊢
    rw [List.foldlM_append, run]
    simp only [List.foldlM_cons, List.foldlM_nil, bind, Except.bind, step, pure, Except.pure]

/-- Every sequence of pushes from a new ring, past the exhaustion of the sequence numbers included,
runs without leaving the array or a machine word and leaves exactly the most recent accepted events
in the ring, with every counter and the oldest sequence number determined by the log. -/
theorem push_refines_log (events : List AuditEvent) :
    ∃ ring, pushAll new events = .ok ring ∧
      ring.len = min (accepted events).length 256 ∧
      (∀ i < ring.len, ring.events[(ring.head + i) % 256]? =
        (accepted events)[(accepted events).length - ring.len + i]?) ∧
      (∀ i event, (accepted events)[i]? = some event → event.sequence = i + 1) ∧
      ring.nextSequence = (accepted events).length + 1 ∧
      ring.totalEvents = (accepted events).length ∧
      ring.successfulEvents = (accepted events).countP (fun event => event.errno = 0) ∧
      ring.failedEvents = (accepted events).countP (fun event => event.errno ≠ 0) ∧
      ring.overwrittenEvents = (accepted events).length - ring.len ∧
      ring.firstSequence = .ok (ring.nextSequence - ring.len) ∧
      ring.stats = .ok { capacity := 256, retained := ring.len
                         firstSequence := ring.nextSequence - ring.len, nextSequence := ring.nextSequence
                         totalEvents := ring.totalEvents, successfulEvents := ring.successfulEvents
                         failedEvents := ring.failedEvents, overwrittenEvents := ring.overwrittenEvents } := by
  obtain ⟨ring, run, holds⟩ := pushAll_holds events
  exact ⟨ring, run, holds.len_eq, fun i inside => holds.slot inside, holds.stamped, holds.next_eq,
    holds.total_eq, holds.successful_eq, holds.failed_eq, holds.overwritten_eq, holds.firstSequence_eq,
    holds.stats_eq⟩

end AuditRing
end SecureIpc
