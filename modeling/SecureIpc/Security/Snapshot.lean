import SecureIpc.Security.AuditLog

/-! A snapshot of the audit ring is a piece of the log, and successive reads are pieces one after another. -/

namespace SecureIpc
open Lib

def AuditBatch.records (self : AuditBatch) : List AuditRecordV1 := (List.range self.len).filterMap self.recordAt

/-- A batch whose events are a piece of a list has the records of that piece. -/
theorem AuditBatch.records_eq {batch : AuditBatch} {log : List AuditEvent} {start : Nat} (fits : start + batch.len ≤ log.length)
    (events : ∀ i < batch.len, batch.events[i]? = log[start + i]?) :
    batch.records = ((log.drop start).take batch.len).mapIdx fun i event => event.toRecord (i == 0 && batch.gapBefore) := by
  have each : ∀ i ∈ List.range batch.len, batch.recordAt i =
      some ((log.getD (start + i) .EMPTY).toRecord (i == 0 && batch.gapBefore)) := by
    intro i inside
    have less := List.mem_range.mp inside
    unfold recordAt
    rw [if_neg (Nat.not_le.mpr less), events i less, List.getElem?_eq_getElem (by omega), List.getD_eq_getElem?_getD,
      List.getElem?_eq_getElem (by omega)]
    rfl
  unfold records
  rw [List.filterMap_congr each]
  simp only [List.filterMap_eq_map']
  refine List.ext_getElem (by simp; omega) fun i inside _ => ?_
  rw [List.length_map, List.length_range] at inside
  simp [List.getD_eq_getElem?_getD, List.getElem?_eq_getElem (show start + i < log.length by omega)]

theorem AuditBatch.recordAt_beyond {batch : AuditBatch} {i : Nat} (beyond : batch.len ≤ i) : batch.recordAt i = none := by
  unfold recordAt
  rw [if_pos beyond]

theorem AuditBatch.recordAt_eq {batch : AuditBatch} (complete : batch.records.length = batch.len) (i : Nat) :
    batch.recordAt i = batch.records[i]? := by
  have counted := complete
  unfold records at counted
  rw [List.length_filterMap_eq_countP] at counted
  have all := List.countP_eq_length.mp (counted.trans List.length_range.symm)
  by_cases inside : i < batch.len
  · have each : ∀ j ∈ List.range batch.len, batch.recordAt j = some ((batch.recordAt j).getD (AuditEvent.EMPTY.toRecord false)) := by
      intro j member
      obtain ⟨record, found⟩ := Option.isSome_iff_exists.mp (all j member)
      rw [found]
      rfl
    unfold records
    rw [List.filterMap_congr each, List.filterMap_eq_map', List.getElem?_map, List.getElem?_range inside, Option.map_some]
    exact each i (List.mem_range.mpr inside)
  · rw [recordAt_beyond (Nat.le_of_not_lt inside), List.getElem?_eq_none (by omega)]

namespace AuditRing
variable {ring : AuditRing} {log : List AuditEvent}

def retained (self : AuditRing) : List AuditEvent := Circular.window self.events .EMPTY self.head self.len

def retainedAfter (self : AuditRing) (afterSequence : Nat) : List AuditEvent :=
  self.retained.filter fun event => afterSequence < event.sequence

/-- The copy loop puts the retained events from `offset` on into the batch, one by one. -/
theorem copyOut_eq (holds : ring.Holds log) {offset count index : Nat} {events : List AuditEvent}
    (retained : offset + index + count ≤ ring.len) (room : index + count ≤ events.length) :
    ∃ copied, ring.copyOut offset count index events = .ok copied ∧ copied.length = events.length ∧
      (∀ j < index, copied[j]? = events[j]?) ∧
      ∀ j, index ≤ j → j < index + count → copied[j]? = log[log.length - ring.len + (offset + j)]? := by
  induction count generalizing index events with
  | zero => exact ⟨events, rfl, rfl, fun _ _ => rfl, fun j least less => by omega⟩
  | succ count ih =>
    have slots : auditRingCapacity = 256 := rfl
    have len_eq := holds.len_eq
    have head_lt := holds.head_lt
    have cell : (ring.head + offset + index) % auditRingCapacity < ring.events.length := by
      rw [holds.slots]
      exact Nat.mod_lt _ (by decide)
    have entry := holds.slot (show offset + index < ring.len by omega)
    rw [← Nat.add_assoc, List.getElem?_eq_getElem cell] at entry
    obtain ⟨copied, run, size, before, after⟩ := @ih (index + 1)
      (events.set index ring.events[(ring.head + offset + index) % auditRingCapacity]) (by omega)
      (by rw [List.length_set]; omega)
    refine ⟨copied, ?_, size.trans List.length_set, fun j less => ?_, fun j least less => ?_⟩
    · simp only [copyOut, addWord_ok (show ring.head + offset < 2 ^ 64 by omega),
        addWord_ok (show ring.head + offset + index < 2 ^ 64 by omega), getIndex_ok cell,
        setIndex_ok (show index < events.length by omega), bind, Except.bind]
      exact run
    · rw [before j (by omega), List.getElem?_set_ne (by omega)]
    · by_cases first : j = index
      · rw [before j (by omega), first, List.getElem?_set_self (by omega), entry]
      · exact after j (by omega) (by omega)

/-- The events after `cursor` that are still retained, with a gap before them if some are not. -/
theorem Holds.snapshot_eq (holds : ring.Holds log) {cursor capacity start : Nat} (behind : cursor < log.length)
    (wanted : 0 < capacity) (start_eq : start = max cursor (log.length - ring.len)) :
    ∃ batch, ring.snapshot cursor capacity = .ok batch ∧
      batch.len = min (log.length - start) (min capacity auditReadMaxRecords) ∧
      batch.records = ((log.drop start).take batch.len).mapIdx
        fun i event => event.toRecord (i == 0 && decide (cursor < log.length - ring.len)) := by
  have len_eq := holds.len_eq
  have next := holds.next_eq
  have limit := holds.limit
  have largest : auditLogLimit = 2 ^ 64 - 2 := rfl
  have maximum : u64Max = 2 ^ 64 - 1 := rfl
  have most : auditReadMaxRecords = 32 := rfl
  have slots : auditRingCapacity = 256 := rfl
  have usable : ¬(min capacity auditReadMaxRecords = 0 ∨ ring.len = 0 ∨ cursor = u64Max) := by omega
  have first : ring.nextSequence - ring.len = log.length - ring.len + 1 := by omega
  have begins : max (cursor + 1) (log.length - ring.len + 1) = start + 1 := by omega
  have some : ¬ring.nextSequence ≤ start + 1 := by omega
  have count : ring.nextSequence - (start + 1) = log.length - start := by omega
  have offset : start + 1 - (log.length - ring.len + 1) = start - (log.length - ring.len) := by omega
  have gap : decide (cursor + 1 < log.length - ring.len + 1) = decide (cursor < log.length - ring.len) :=
    decide_eq_decide.mpr Nat.add_lt_add_iff_right
  obtain ⟨copied, run, size, _, entries⟩ := @copyOut_eq ring log holds (start - (log.length - ring.len))
    (min (log.length - start) (min capacity auditReadMaxRecords)) 0 AuditBatch.empty.events (by omega)
    (by show _ ≤ 32; omega)
  refine ⟨⟨copied, min (log.length - start) (min capacity auditReadMaxRecords), decide (cursor < log.length - ring.len)⟩,
    ?_, rfl, AuditBatch.records_eq (by dsimp only; omega) fun i inside => ?_⟩
  · unfold snapshot
    rw [if_neg usable]
    simp only [addWord_ok (show cursor + 1 < 2 ^ 64 by omega), holds.firstSequence_eq, first, begins, bind, Except.bind,
      if_neg some, subWord_ok (Nat.le_of_not_le some), subWord_ok (show log.length - ring.len + 1 ≤ start + 1 by omega), count,
      offset, run, pure, Except.pure, gap]
  · dsimp only at inside ⊢
    rw [entries i (Nat.zero_le i) (by omega), show log.length - ring.len + (start - (log.length - ring.len) + i) = start + i by omega]

/-! ### Windows -/

theorem Holds.sequence_of_drop (holds : ring.Holds log) {start i : Nat} {event : AuditEvent}
    (found : (log.drop start)[i]? = some event) : event.sequence = start + i + 1 := by
  rw [List.getElem?_drop] at found
  exact holds.stamped _ _ found

theorem Holds.retainedAfter_eq (holds : ring.Holds log) (cursor : Nat) :
    ring.retainedAfter cursor = log.drop (max cursor (log.length - ring.len)) := by
  have split : log.drop (log.length - ring.len) =
      (log.drop (log.length - ring.len)).take (cursor - (log.length - ring.len)) ++
        log.drop (max cursor (log.length - ring.len)) := by
    have rest := List.take_append_drop (cursor - (log.length - ring.len)) (log.drop (log.length - ring.len))
    rw [List.drop_drop, show log.length - ring.len + (cursor - (log.length - ring.len)) =
      max cursor (log.length - ring.len) by omega] at rest
    exact rest.symm
  unfold retainedAfter retained
  rw [holds.window_eq, split, List.filter_append]
  -- the events up to the cursor go, those after it stay
  have seen : List.filter (fun event => decide (cursor < event.sequence))
      ((log.drop (log.length - ring.len)).take (cursor - (log.length - ring.len))) = [] := by
    rw [List.filter_eq_nil_iff]
    intro event member
    obtain ⟨i, inside, found⟩ := List.mem_iff_getElem.mp member
    rw [List.length_take] at inside
    rw [List.getElem_take] at found
    have sequence := holds.sequence_of_drop (List.getElem?_eq_some_iff.mpr ⟨_, found⟩)
    rw [decide_eq_true_eq]
    omega
  have new : List.filter (fun event => decide (cursor < event.sequence))
      (log.drop (max cursor (log.length - ring.len))) = log.drop (max cursor (log.length - ring.len)) := by
    rw [List.filter_eq_self]
    intro event member
    obtain ⟨i, found⟩ := List.mem_iff_getElem?.mp member
    have sequence := holds.sequence_of_drop found
    rw [decide_eq_true_eq]
    omega
  rw [seen, new, List.nil_append]

theorem Holds.ascending (holds : ring.Holds log) : log.Pairwise fun a b => a.sequence < b.sequence := by
  rw [List.pairwise_iff_getElem]
  intro i j first second less
  rw [holds.stamped i _ (List.getElem?_eq_getElem first), holds.stamped j _ (List.getElem?_eq_getElem second)]
  exact Nat.succ_lt_succ less

/-- An event has been overwritten after `cursor` exactly when the oldest retained one is not the next. -/
theorem Holds.overwritten_iff (holds : ring.Holds log) {cursor : Nat} :
    cursor < log.length - ring.len ↔ ∃ event ∈ log, cursor < event.sequence ∧ event ∉ ring.retained := by
  have len_eq := holds.len_eq
  have windowed : ring.retained = log.drop (log.length - ring.len) := holds.window_eq
  rw [windowed]
  constructor
  · intro gap
    have inside : cursor < log.length := by omega
    have sequence := holds.stamped cursor _ (List.getElem?_eq_getElem inside)
    refine ⟨log[cursor], List.getElem_mem inside, by omega, fun kept => ?_⟩
    obtain ⟨i, found⟩ := List.mem_iff_getElem?.mp kept
    have again := holds.sequence_of_drop found
    omega
  · rintro ⟨event, member, after, gone⟩
    obtain ⟨i, found⟩ := List.mem_iff_getElem?.mp member
    have sequence := holds.stamped i event found
    by_contra retained
    refine gone (List.mem_iff_getElem?.mpr ⟨i - (log.length - ring.len), ?_⟩)
    rw [List.getElem?_drop, show log.length - ring.len + (i - (log.length - ring.len)) = i by omega]
    exact found

/-- Every snapshot: the first retained events after the cursor, as many as asked for, at most 32. -/
theorem Holds.snapshot_window (holds : ring.Holds log) {cursor : Nat} (word : cursor < 2 ^ 64) (capacity : Nat) :
    ∃ batch, ring.snapshot cursor capacity = .ok batch ∧
      batch.len = min auditReadMaxRecords (min capacity (ring.retainedAfter cursor).length) ∧
      batch.records = ((ring.retainedAfter cursor).take batch.len).mapIdx
        fun i event => event.toRecord (i == 0 && decide (cursor < log.length - ring.len)) := by
  have len_eq := holds.len_eq
  have next := holds.next_eq
  rw [holds.retainedAfter_eq cursor, List.length_drop]
  by_cases nothing : capacity = 0 ∨ log.length ≤ cursor
  · refine ⟨.empty, ?_, ?_, ?_⟩
    · unfold snapshot
      by_cases early : min capacity auditReadMaxRecords = 0 ∨ ring.len = 0 ∨ cursor = u64Max
      · rw [if_pos early]
      · rw [if_neg early]
        have maximum : u64Max = 2 ^ 64 - 1 := rfl
        have past : ring.nextSequence ≤ max (cursor + 1) (ring.nextSequence - ring.len) := by omega
        simp only [addWord_ok (show cursor + 1 < 2 ^ 64 by omega), holds.firstSequence_eq, bind, Except.bind, if_pos past]
        rfl
    · show 0 = _
      omega
    · rfl
  · obtain ⟨batch, run, len, records⟩ := @Holds.snapshot_eq ring log holds cursor capacity
      (max cursor (log.length - ring.len)) (by omega) (by omega) rfl
    exact ⟨batch, run, by omega, records⟩

/-! ### Successive reads -/

inductive ReaderStep where
  | push (event : AuditEvent)
  | read (capacity : Nat)

/-- A reader that goes on after the last sequence number it was given: all records it is given. -/
def follow : List ReaderStep → AuditRing → Nat → Except Fault (List AuditRecordV1)
  | [], _, _ => .ok []
  | .push event :: rest, ring, cursor => do
    let ring ← ring.push event
    follow rest ring cursor
  | .read capacity :: rest, ring, cursor => do
    let batch ← ring.snapshot cursor capacity
    let later ← follow rest ring ((batch.records.getLast?.map AuditRecordV1.sequence).getD cursor)
    return batch.records ++ later

/-- The records of a batch ascend, from the cursor on and within the log. -/
theorem Holds.snapshot_ascending (holds : ring.Holds log) {cursor capacity : Nat} {batch : AuditBatch}
    (word : cursor < 2 ^ 64) (run : ring.snapshot cursor capacity = .ok batch) :
    (∀ record ∈ batch.records, cursor < record.sequence ∧ record.sequence ≤ log.length) ∧
      batch.records.Pairwise fun a b => a.sequence < b.sequence := by
  obtain ⟨found, again, len, records⟩ := holds.snapshot_window word capacity
  obtain rfl := Except.ok.inj (again.symm.trans run)
  rw [holds.retainedAfter_eq] at records
  have entry : ∀ i record, found.records[i]? = some record →
      record.sequence = max cursor (log.length - ring.len) + i + 1 ∧ record.sequence ≤ log.length := by
    intro i record looked
    rw [records, List.getElem?_mapIdx] at looked
    obtain ⟨event, member, rfl⟩ := Option.map_eq_some_iff.mp looked
    rw [List.getElem?_take] at member
    split at member
    · obtain ⟨inside, _⟩ := List.getElem?_eq_some_iff.mp member
      rw [List.length_drop] at inside
      have sequence : (event.toRecord (i == 0 && decide (cursor < log.length - ring.len))).sequence =
          max cursor (log.length - ring.len) + i + 1 := holds.sequence_of_drop member
      omega
    · cases member
  constructor
  · intro record member
    obtain ⟨i, looked⟩ := List.mem_iff_getElem?.mp member
    have := entry i record looked
    omega
  · rw [List.pairwise_iff_getElem]
    intro i j first second less
    have left := entry i _ (List.getElem?_eq_getElem first)
    have right := entry j _ (List.getElem?_eq_getElem second)
    omega

/-- Whatever is pushed in between, a reader that goes on after the last record sees ascending
sequence numbers, all of them after the cursor it starts with. -/
theorem Holds.follow_ascending (holds : ring.Holds log) (steps : List ReaderStep) {cursor : Nat} (word : cursor < 2 ^ 64) :
    ∃ records, follow steps ring cursor = .ok records ∧ (∀ record ∈ records, cursor < record.sequence) ∧
      records.Pairwise fun a b => a.sequence < b.sequence := by
  induction steps generalizing ring log cursor with
  | nil => exact ⟨[], rfl, by simp, .nil⟩
  | cons step rest ih =>
    cases step with
    | push event =>
      obtain ⟨pushed, run, kept⟩ := push_logAfter event holds
      obtain ⟨records, later, above, ascending⟩ := ih kept word
      refine ⟨records, ?_, above, ascending⟩
      simp only [follow, run, bind, Except.bind, later]
    | read capacity =>
      obtain ⟨batch, run, _⟩ := holds.snapshot_window word capacity
      obtain ⟨inside, ordered⟩ := holds.snapshot_ascending word run
      have limit : log.length < 2 ^ 64 := by
        have := holds.limit
        have largest : auditLogLimit = 2 ^ 64 - 2 := rfl
        omega
      obtain ⟨next, next_eq⟩ : ∃ next, next = (batch.records.getLast?.map AuditRecordV1.sequence).getD cursor := ⟨_, rfl⟩
      -- the new cursor is at or after every record of this batch
      have cursorAfter : next < 2 ^ 64 ∧ cursor ≤ next ∧ ∀ record ∈ batch.records, record.sequence ≤ next := by
        rcases List.eq_nil_or_concat batch.records with none | ⟨front, last, some⟩
        · rw [none] at next_eq ⊢
          exact ⟨by rw [next_eq]; exact word, by rw [next_eq]; exact Nat.le_refl cursor, by simp⟩
        · rw [List.concat_eq_append] at some
          rw [some, List.getLast?_append, List.getLast?_singleton] at next_eq
          have given : next = last.sequence := next_eq
          have member := inside last (by rw [some]; exact List.mem_append_right _ (List.mem_singleton_self last))
          refine ⟨by omega, by omega, fun record among => ?_⟩
          rw [some] at among ordered
          rcases List.mem_append.mp among with before | same
          · have less := (List.pairwise_append.mp ordered).2.2 record before last (List.mem_singleton_self last)
            omega
          · obtain rfl := List.mem_singleton.mp same
            omega
      obtain ⟨small, least, seen⟩ := cursorAfter
      obtain ⟨records, later, above, ascending⟩ := ih holds small
      refine ⟨batch.records ++ records, ?_, ?_, ?_⟩
      · simp only [follow, run, bind, Except.bind, ← next_eq, later, pure, Except.pure]
      · intro record member
        rcases List.mem_append.mp member with now | after
        · exact (inside record now).1
        · exact Nat.lt_of_le_of_lt least (above record after)
      · rw [List.pairwise_append]
        exact ⟨ordered, ascending, fun a now b after => Nat.lt_of_le_of_lt (seen a now) (above b after)⟩

end AuditRing

end SecureIpc
