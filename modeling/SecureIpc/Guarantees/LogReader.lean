import SecureIpc.Run.Calls
import SecureIpc.User.Auditctl

/-! What `auditctl read` shows of the log while other processes append to it. -/

namespace SecureIpc
open Lib

inductive AuditEvent.Recorded : AuditEvent → Prop where
  | request (request : IpcRequest) (outcome : IpcResult Nat) (now : Nat) : Recorded (.fromRequest request outcome now)
  | control (operation : AuditControlOperation) (subject : IpcSubject) (amount : Nat) (error : IpcError) (now : Nat) :
      Recorded (.fromControlFailure operation subject amount error now)

theorem errorToErrno_nonneg (error : IpcError) : 0 ≤ errorToErrno error := by
  cases error <;> decide

theorem AuditEvent.Recorded.errno_nonneg {event : AuditEvent} (recorded : event.Recorded) : 0 ≤ event.errno := by
  cases recorded with
  | request request outcome now =>
    cases outcome with
    | ok value => exact Int.le_refl 0
    | error error => exact errorToErrno_nonneg error
  | control operation subject amount error now =>
    cases operation with
    | auditRead => exact errorToErrno_nonneg error
    | ipcStat => exact errorToErrno_nonneg error

/-! ### The system calls of an authorised caller -/

section
variable {P : Platform} {s : System P} {id : Nat} {task : TaskControlBlock}

/-- Call 602 returns the size of the batch and leaves the log alone, if there is nothing to copy or the buffer is mapped. -/
theorem sysAuditRead_batch {records capacity afterSequence : Nat} {batch : AuditBatch} {k : Kernel P}
    (current : s.kernel.current = some id) (found : s.kernel.tasks id = some task)
    (authorised : checkPermission task.subject = .ok ()) (room : capacity ≠ 0)
    (taken : s.auditRing.snapshot afterSequence capacity = .ok batch)
    (stored : batch.len = 0 ∧ k = s.kernel ∨ batch.len ≠ 0 ∧ checkOutputRange records batch.len auditRecordV1Size = .ok () ∧
      mm (copyRecords batch task.getUserToken records batch.len 0) s.kernel = .ok (.ok (), k)) :
    sysAuditRead records capacity afterSequence s = .ok (intOfWord batch.len, { s with kernel := k }) := by
  have spec : wp (sysAuditRead records capacity afterSequence)
      (fun r s' => r = intOfWord batch.len ∧ s' = { s with kernel := k }) (fun _ => False) s := by
    simp only [sysAuditRead, callerContext, wp_bind, wp_kernel, wp_currentTask, current, wp_innerOf, found, wp_pure,
      readRecords, authorised, if_neg room, Audit.snapshot, wp_read, taken, Except.mapError, wp_lift_ok]
    rcases stored with ⟨none, rfl⟩ | ⟨some, range, copied⟩
    · rw [if_pos none, none]
      exact ⟨rfl, rfl⟩
    · rw [if_neg some, range]
      simp only [wp_bind, wp_kernel]
      rw [wp, copied]
      exact ⟨rfl, rfl⟩
  obtain ⟨_, _, run, rfl, rfl⟩ := wp_returns spec
  exact run

theorem sysIpcStat_zero {stats : Nat} {snapshot : AuditStatsSnapshot} {k : Kernel P} (current : s.kernel.current = some id)
    (found : s.kernel.tasks id = some task) (authorised : checkPermission task.subject = .ok ())
    (taken : s.auditRing.stats = .ok snapshot) (range : checkOutputRange stats 1 ipcStatsV1Size = .ok ())
    (copied : mm (copyToUser task.getUserToken stats snapshot.toRecord.bytes) s.kernel = .ok (.ok (), k)) :
    sysIpcStat stats ipcStatsV1Size 0 s = .ok (0, { s with kernel := k }) := by
  have valid : ¬((0 : Nat) ≠ 0 ∨ ipcStatsV1Size < ipcStatsV1Size) := by simp
  have spec : wp (sysIpcStat stats ipcStatsV1Size 0) (fun r s' => r = intOfWord 0 ∧ s' = { s with kernel := k })
      (fun _ => False) s := by
    simp only [sysIpcStat, callerContext, wp_bind, wp_kernel, wp_currentTask, current, wp_innerOf, found, wp_pure,
      readStats, authorised, if_neg valid, range, Audit.stats, wp_read, taken, Except.mapError, wp_lift_ok]
    generalize snapshot.toRecord.bytes = bytes at copied ⊢
    rw [wp, copied]
    exact ⟨rfl, rfl⟩
  obtain ⟨_, _, run, rfl, rfl⟩ := wp_returns spec
  exact run

/-- The calls 603 and 602 of a task whose buffers are mapped: they store what `stat` and `read` of a shell with the same log
return, and return the same value. -/
structure AnswersShell (s : System P) (task : TaskControlBlock) : Prop where
  stat : ∀ stats snapshot k, s.auditRing.stats = .ok snapshot → checkOutputRange stats 1 ipcStatsV1Size = .ok () →
    mm (copyToUser task.getUserToken stats snapshot.toRecord.bytes) s.kernel = .ok (.ok (), k) →
    ∃ r, sysIpcStat stats ipcStatsV1Size 0 s = .ok (r, { s with kernel := k }) ∧
      Auditctl.stat ⟨s.auditRing, [], []⟩ = .ok ((r, snapshot.toRecord), ⟨s.auditRing, [], []⟩)
  read : ∀ pointer (records : List AuditRecordV1) afterSequence batch k, records ≠ [] →
    s.auditRing.snapshot afterSequence records.length = .ok batch →
    (batch.len = 0 ∧ k = s.kernel ∨ batch.len ≠ 0 ∧ checkOutputRange pointer batch.len auditRecordV1Size = .ok () ∧
      mm (copyRecords batch task.getUserToken pointer batch.len 0) s.kernel = .ok (.ok (), k)) →
    ∃ r, sysAuditRead pointer records.length afterSequence s = .ok (r, { s with kernel := k }) ∧
      Auditctl.read records afterSequence ⟨s.auditRing, [], []⟩ =
        .ok ((r, batch.records ++ records.drop batch.len), ⟨s.auditRing, [], []⟩)

theorem answersShell (current : s.kernel.current = some id) (found : s.kernel.tasks id = some task)
    (authorised : checkPermission task.subject = .ok ()) : AnswersShell s task where
  stat stats snapshot k taken range copied := by
    refine ⟨0, sysIpcStat_zero current found authorised taken range copied, ?_⟩
    have spec : wp Auditctl.stat (fun r t => r = (0, snapshot.toRecord) ∧ t = ⟨s.auditRing, [], []⟩) (fun _ => False) ⟨s.auditRing, [], []⟩ := by
      apply wp_bind.mpr
      refine wp_of_run (show Auditctl.interleave ⟨s.auditRing, [], []⟩ = .ok ((), ⟨s.auditRing, [], []⟩) from rfl) ?_
      simp only [wp_bind, wp_read, taken, wp_lift_ok, wp_pure, and_self]
    obtain ⟨_, _, run, rfl, rfl⟩ := wp_returns spec
    exact run
  read pointer records afterSequence batch k some taken stored := by
    have room : records.length ≠ 0 := fun none => some (List.length_eq_zero_iff.mp none)
    refine ⟨intOfWord batch.len, sysAuditRead_batch current found authorised room taken stored, ?_⟩
    have spec : wp (Auditctl.read records afterSequence)
        (fun r t => r = (intOfWord batch.len, batch.records ++ records.drop batch.len) ∧ t = ⟨s.auditRing, [], []⟩)
        (fun _ => False) ⟨s.auditRing, [], []⟩ := by
      apply wp_bind.mpr
      refine wp_of_run (show Auditctl.interleave ⟨s.auditRing, [], []⟩ = .ok ((), ⟨s.auditRing, [], []⟩) from rfl) ?_
      simp only [wp_bind, wp_read, taken, wp_lift_ok, wp_pure, and_self]
    obtain ⟨_, _, run, rfl, rfl⟩ := wp_returns spec
    exact run

end

namespace AuditRing

theorem getElem?_accepted (events : List AuditEvent) (i : Nat) :
    (accepted events)[i]? = (events.take auditLogLimit)[i]?.map fun event => { event with sequence := i + 1 } := by
  rw [accepted, List.getElem?_mapIdx]

theorem accepted_entry {events more : List AuditEvent} {i : Nat} {event : AuditEvent}
    (entry : (accepted events)[i]? = some event) : (accepted (events ++ more))[i]? = some event := by
  rw [getElem?_accepted, Option.map_eq_some_iff] at entry ⊢
  obtain ⟨original, found, equal⟩ := entry
  refine ⟨original, ?_, equal⟩
  rw [List.getElem?_take] at found ⊢
  split_ifs at found ⊢ with small
  · rw [List.getElem?_append_left (List.getElem?_eq_some_iff.mp found).1]
    exact found

theorem accepted_errno {events : List AuditEvent} {i : Nat} {event : AuditEvent} (recorded : ∀ e ∈ events, e.Recorded)
    (entry : (accepted events)[i]? = some event) : 0 ≤ event.errno := by
  rw [getElem?_accepted, Option.map_eq_some_iff] at entry
  obtain ⟨original, found, rfl⟩ := entry
  exact (recorded original (List.mem_of_mem_take (List.mem_of_getElem? found))).errno_nonneg

theorem pushAll_accepted {ring : AuditRing} {events more : List AuditEvent} (holds : ring.Holds (accepted events)) :
    ∃ pushed, ring.pushAll more = .ok pushed ∧ pushed.Holds (accepted (events ++ more)) := by
  induction more generalizing ring events with
  | nil => exact ⟨ring, rfl, by rwa [List.append_nil]⟩
  | cons event rest ih =>
    obtain ⟨first, step, holds₁⟩ := push_logAfter event holds
    rw [← accepted_append] at holds₁
    obtain ⟨pushed, run, holds₂⟩ := ih holds₁
    refine ⟨pushed, ?_, by rwa [List.append_assoc, List.singleton_append] at holds₂⟩
    unfold pushAll at run ⊢
    rw [List.foldlM_cons, step]
    exact run

end AuditRing

namespace Auditctl
open AuditRing

/-! ### The output -/

def displayed (output : List Line) : List Nat :=
  output.filterMap fun line => match line with
    | .record record => some record.sequence
    | _ => none

/-- The output is about the events after `cursor` up to `through`: it shows them in order and as they
are in the log, and every one that is missing is before a reported gap. -/
structure Accounts (log : List AuditEvent) (cursor through : Nat) (output : List Line) : Prop where
  ordered : (displayed output).Pairwise (· < ·)
  records : ∀ record, .record record ∈ output → cursor < record.sequence ∧ record.sequence ≤ through ∧
    ∃ event gap, log[record.sequence - 1]? = some event ∧ record = event.toRecord gap
  covered : ∀ s, cursor < s → s ≤ through → s ∈ displayed output ∨
    ∃ t, .gapBefore t ∈ output ∧ s < t ∧ ∀ d ∈ displayed output, ¬(s < d ∧ d < t)
  clean : ∀ line ∈ output, line.isError = false

structure Shown (log : List AuditEvent) (cursor through : Nat) (output : List Line) (last : Nat) : Prop where
  from_start : cursor ≤ last
  ordered : (displayed output).Pairwise (· < ·)
  behind : ∀ d ∈ displayed output, d ≤ last
  records : ∀ record, .record record ∈ output → cursor < record.sequence ∧ record.sequence ≤ through ∧
    ∃ event gap, log[record.sequence - 1]? = some event ∧ record = event.toRecord gap
  covered : ∀ s, cursor < s → s ≤ last → s ∈ displayed output ∨
    ∃ t, .gapBefore t ∈ output ∧ s < t ∧ t ≤ last ∧ ∀ d ∈ displayed output, ¬(s < d ∧ d < t)
  clean : ∀ line ∈ output, line.isError = false

variable {log : List AuditEvent} {cursor through last : Nat} {output : List Line}

theorem displayed_append (output more : List Line) : displayed (output ++ more) = displayed output ++ displayed more :=
  List.filterMap_append

theorem Shown.nothing : Shown log cursor through [] cursor :=
  ⟨Nat.le_refl _, .nil, nofun, nofun, fun s above below => by omega, nofun⟩

theorem clean_append {line : Line} (clean : ∀ line ∈ output, line.isError = false) (this : line.isError = false) :
    ∀ other ∈ output ++ [line], other.isError = false := by
  intro other mem
  rcases List.mem_append.mp mem with old | new
  · exact clean other old
  · rw [List.mem_singleton.mp new]
    exact this

theorem Shown.gap {t : Nat} (shown : Shown log cursor through output last) :
    Shown log cursor through (output ++ [.gapBefore t]) last := by
  have same : displayed (output ++ [.gapBefore t]) = displayed output := by
    rw [displayed_append]
    exact List.append_nil _
  refine ⟨shown.from_start, ?_, ?_, fun record mem => ?_, fun s above below => ?_, clean_append shown.clean rfl⟩
  · rw [same]
    exact shown.ordered
  · rw [same]
    exact shown.behind
  · rcases List.mem_append.mp mem with old | new
    · exact shown.records record old
    · cases List.mem_singleton.mp new
  · rw [same]
    rcases shown.covered s above below with visible | ⟨t, warned, rest⟩
    · exact Or.inl visible
    · exact Or.inr ⟨t, List.mem_append_left _ warned, rest⟩

/-- The next record is shown: the one after the last, or one behind a gap that has been reported. -/
theorem Shown.show {record : AuditRecordV1} {event : AuditEvent} {gap : Bool} (shown : Shown log cursor through output last)
    (above : last < record.sequence) (next : record.sequence = last + 1 ∨ .gapBefore record.sequence ∈ output)
    (inside : record.sequence ≤ through) (entry : log[record.sequence - 1]? = some event) (equal : record = event.toRecord gap) :
    Shown log cursor through (output ++ [.record record]) record.sequence := by
  have more : displayed (output ++ [.record record]) = displayed output ++ [record.sequence] := displayed_append _ _
  have start := shown.from_start
  refine ⟨by omega, ?_, fun d mem => ?_, fun other mem => ?_, fun s after below => ?_, clean_append shown.clean rfl⟩
  · rw [more, List.pairwise_append]
    refine ⟨shown.ordered, List.pairwise_singleton _ _, fun d mem d' mem' => ?_⟩
    rw [List.mem_singleton.mp mem']
    have := shown.behind d mem
    omega
  · rw [more, List.mem_append] at mem
    rcases mem with old | new
    · have := shown.behind d old
      omega
    · exact Nat.le_of_eq (List.mem_singleton.mp new)
  · rcases List.mem_append.mp mem with old | new
    · exact shown.records other old
    · cases List.mem_singleton.mp new
      exact ⟨by omega, inside, event, gap, entry, equal⟩
  · rw [more]
    by_cases old : s ≤ last
    · rcases shown.covered s after old with visible | ⟨t, warned, less, small, none⟩
      · exact Or.inl (List.mem_append_left _ visible)
      · refine Or.inr ⟨t, List.mem_append_left _ warned, less, by omega, fun d mem => ?_⟩
        rcases List.mem_append.mp mem with before | new
        · exact none d before
        · rw [List.mem_singleton.mp new]
          omega
    · by_cases this : s = record.sequence
      · exact Or.inl (List.mem_append_right _ (List.mem_singleton.mpr this))
      · have reported : .gapBefore record.sequence ∈ output := next.resolve_left (by omega)
        refine Or.inr ⟨record.sequence, List.mem_append_left _ reported, by omega, Nat.le_refl _, fun d mem => ?_⟩
        rcases List.mem_append.mp mem with before | new
        · have := shown.behind d before
          omega
        · rw [List.mem_singleton.mp new]
          omega

/-- The loop ends when everything up to `through` has been read, or with a gap that reaches beyond it. -/
theorem Shown.accounts (shown : Shown log cursor through output last)
    (ended : through ≤ last ∨ ∃ t, through < t ∧ .gapBefore t ∈ output) : Accounts log cursor through output := by
  refine ⟨shown.ordered, shown.records, fun s above below => ?_, shown.clean⟩
  by_cases old : s ≤ last
  · rcases shown.covered s above old with visible | ⟨t, warned, less, _, none⟩
    · exact Or.inl visible
    · exact Or.inr ⟨t, warned, less, none⟩
  · obtain ⟨t, large, warned⟩ := ended.resolve_left (by omega)
    refine Or.inr ⟨t, warned, by omega, fun d mem => ?_⟩
    have := shown.behind d mem
    omega

theorem Accounts.summary {displayed' cursor' through' : Nat} (accounts : Accounts log cursor through output) :
    Accounts log cursor through (output ++ [.summary displayed' cursor' through']) := by
  have same : displayed (output ++ [.summary displayed' cursor' through']) = displayed output := by
    rw [displayed_append]
    exact List.append_nil _
  refine ⟨?_, fun record mem => ?_, fun s above below => ?_, clean_append accounts.clean rfl⟩
  · rw [same]
    exact accounts.ordered
  · rcases List.mem_append.mp mem with old | new
    · exact accounts.records record old
    · cases List.mem_singleton.mp new
  · rw [same]
    rcases accounts.covered s above below with visible | ⟨t, warned, rest⟩
    · exact Or.inl visible
    · exact Or.inr ⟨t, List.mem_append_left _ warned, rest⟩

/-! ### A batch -/

/-- A batch continues the log after `last`; only its first record can be behind a gap. -/
inductive Follows (log : List AuditEvent) : Bool → Nat → List AuditRecordV1 → Prop where
  | nil {first : Bool} {last : Nat} : Follows log first last []
  | cons {first gap : Bool} {last : Nat} {event : AuditEvent} {record : AuditRecordV1} {rest : List AuditRecordV1}
      (entry : log[record.sequence - 1]? = some event) (equal : record = event.toRecord gap) (errno : 0 ≤ event.errno)
      (above : last < record.sequence) (gapped : gap = true → first = true)
      (next : gap = false → record.sequence = last + 1) (others : Follows log false record.sequence rest) :
      Follows log first last (record :: rest)

theorem hasGapBefore_toRecord (event : AuditEvent) (gap : Bool) : (event.toRecord gap).hasGapBefore = gap := by
  cases gap <;> simp [AuditRecordV1.hasGapBefore, AuditEvent.toRecord, auditRecordGapBefore]

theorem Follows.valid {records : List AuditRecordV1} {first : Bool} {index : Nat} (follows : Follows log first last records)
    (start : first = true → index = 0) : invalidIndex records index last = none := by
  induction follows generalizing index with
  | nil => rfl
  | @cons first gap last event record rest entry equal errno above gapped next others ih =>
    have fine : ¬(record.abiVersion ≠ auditAbiVersion ∨ record.recordSize ≠ auditRecordV1Size ∨ record.sequence ≤ last ∨
        record.errno < 0 ∨ (index ≠ 0 ∧ record.hasGapBefore)) := by
      rintro (version | size | old | negative | ⟨later, flagged⟩)
      · exact version (by rw [equal]; rfl)
      · exact size (by rw [equal]; rfl)
      · omega
      · rw [equal] at negative
        exact absurd errno (Int.not_le.mpr negative)
      · rw [equal, hasGapBefore_toRecord] at flagged
        exact later (start (gapped flagged))
    rw [invalidIndex, if_neg fine]
    exact ih nofun

theorem wp_println {Q : Unit → Shell → Prop} {E : Fault → Prop} {s : Shell} {line : Line} :
    wp (shell.println line) Q E s ↔ Q () { s with output := s.output ++ [line] } := Iff.rfl

/-- Showing a batch shows what comes next, up to its end or up to `through`. -/
theorem showBatch_rule {s : Shell} {records : List AuditRecordV1} {first : Bool} {count : Nat}
    (follows : Follows log first last records) (shown : Shown log cursor through s.output last) :
    wp (shell.showBatch through records last count)
      (fun r s' => s'.ring = s.ring ∧ s'.incoming = s.incoming ∧ Shown log cursor through s'.output r.2.1 ∧
        (r.1 = true → through ≤ r.2.1 ∨ ∃ t, through < t ∧ .gapBefore t ∈ s'.output) ∧
        (r.1 = false → last + records.length ≤ r.2.1)) (fun _ => False) s := by
  induction follows generalizing s count with
  | nil => exact ⟨rfl, rfl, shown, nofun, fun _ => Nat.le_refl _⟩
  | @cons first gap last event record rest entry equal errno above gapped next others ih =>
    have flagged : record.hasGapBefore = gap := by
      rw [equal]
      exact hasGapBefore_toRecord event gap
    -- the warning is printed before the record is compared with `through`
    have warned : wp (shell.warn record) (fun _ s₁ => s₁.ring = s.ring ∧ s₁.incoming = s.incoming ∧
        Shown log cursor through s₁.output last ∧ (record.sequence = last + 1 ∨ .gapBefore record.sequence ∈ s₁.output))
        (fun _ => False) s := by
      rw [Environment.warn, flagged]
      cases gap with
      | false => exact ⟨rfl, rfl, shown, Or.inl (next rfl)⟩
      | true => exact ⟨rfl, rfl, shown.gap, Or.inr (List.mem_append_right _ (List.mem_singleton_self _))⟩
    unfold Environment.showBatch
    apply wp_bind.mpr
    refine wp_mono warned (fun _ s₁ first => ?_) fun _ impossible => impossible
    obtain ⟨ring, incoming, shown₁, reported⟩ := first
    rw [wp_ite]
    split_ifs with beyond
    · refine ⟨ring, incoming, shown₁, fun _ => ?_, nofun⟩
      rcases reported with adjacent | gap
      · exact Or.inl (by dsimp only; omega)
      · exact Or.inr ⟨record.sequence, beyond, gap⟩
    · apply wp_bind.mpr
      rw [wp_println]
      have shown₂ := shown₁.show above reported (Nat.not_lt.mp beyond) entry equal
      refine wp_mono (ih (s := { s₁ with output := s₁.output ++ [.record record] }) shown₂) ?_ fun _ impossible => impossible
      rintro r s₂ ⟨ring₂, incoming₂, shown₃, left, stayed⟩
      refine ⟨ring₂.trans ring, incoming₂.trans incoming, shown₃, left, fun stays => ?_⟩
      have bound := stayed stays
      rw [List.length_cons]
      omega

/-! ### The system calls -/

/-- The log so far is what has been pushed, and the rest of `all` is still to come. -/
structure Tracks (all pushed : List AuditEvent) (s : Shell) : Prop where
  holds : s.ring.Holds (accepted pushed)
  rest : pushed ++ s.incoming.flatten = all

variable {all pushed : List AuditEvent} {s : Shell}

theorem interleave_rule {Q : Unit → Shell → Prop} {E : Fault → Prop} (tracks : Tracks all pushed s)
    (next : ∀ s', Tracks all (pushed ++ s.incoming.headD []) s' → s'.output = s.output →
      s.ring.pushAll (s.incoming.headD []) = .ok s'.ring → Q () s') : wp interleave Q E s := by
  obtain ⟨ring, run, holds⟩ := @pushAll_accepted _ _ (s.incoming.headD []) tracks.holds
  have spec : wp interleave Q E s ↔ Q () { s with ring, incoming := s.incoming.tail } := by
    simp only [wp, interleave, run, bind, Except.bind, pure, Except.pure]
  refine spec.mpr (next _ ⟨holds, ?_⟩ rfl run)
  rw [← tracks.rest, List.append_assoc]
  cases s.incoming with
  | nil => rfl
  | cons first rest => rfl

theorem follows_events {log : List AuditEvent} {start : Nat} {events : List AuditEvent}
    (entries : ∀ i event, events[i]? = some event →
      log[start + i]? = some event ∧ event.sequence = start + i + 1 ∧ 0 ≤ event.errno) :
    Follows log false start (events.map fun event => event.toRecord false) := by
  induction events generalizing start with
  | nil => exact .nil
  | cons event rest ih =>
    obtain ⟨entry, sequence, errno⟩ := entries 0 event rfl
    have number : (event.toRecord false).sequence = start + 1 := sequence
    refine @Follows.cons log false false start event (event.toRecord false) _ ?_ rfl errno (by omega) nofun
      (fun _ => number) ?_
    · rw [number]
      exact entry
    · rw [number]
      refine ih fun i other found => ?_
      rw [Nat.add_right_comm start 1 i]
      exact entries (i + 1) other found

theorem follows_batch {log : List AuditEvent} {start : Nat} {events : List AuditEvent} {gap : Bool}
    (entries : ∀ i event, events[i]? = some event →
      log[start + i]? = some event ∧ event.sequence = start + i + 1 ∧ 0 ≤ event.errno)
    (reached : last ≤ start) (adjacent : gap = false → start = last) :
    Follows log true last (events.mapIdx fun i event => event.toRecord (i == 0 && gap)) := by
  cases events with
  | nil => exact .nil
  | cons event rest =>
    obtain ⟨entry, sequence, errno⟩ := entries 0 event rfl
    have number : (event.toRecord gap).sequence = start + 1 := sequence
    rw [List.mapIdx_cons]
    refine @Follows.cons log true gap last event (event.toRecord gap) _ ?_ rfl errno (by omega) (fun _ => rfl)
      (fun none => ?_) ?_
    · rw [number]
      exact entry
    · rw [number, adjacent none]
    · rw [number]
      have later : (rest.mapIdx fun i event => event.toRecord (i + 1 == 0 && gap)) =
          rest.map fun event => event.toRecord false := by
        refine List.ext_getElem (by simp) fun i _ _ => ?_
        simp
      rw [later]
      refine follows_events fun i other found => ?_
      rw [Nat.add_right_comm start 1 i]
      exact entries (i + 1) other found

/-- A read behind the tail returns a batch that continues the log. -/
theorem read_rule {Q : Int × List AuditRecordV1 → Shell → Prop} {E : Fault → Prop} {records : List AuditRecordV1}
    (tracks : Tracks all pushed s) (recorded : ∀ event ∈ all, event.Recorded) (behind : last < (accepted pushed).length)
    (buffer : records.length = batchSize)
    (next : ∀ s' batch, Tracks all (pushed ++ s.incoming.headD []) s' → s'.output = s.output → 0 < batch.length →
      batch.length ≤ batchSize → Follows (accepted all) true last batch →
      Q (batch.length, batch ++ records.drop batch.length) s') : wp (read records last) Q E s := by
  unfold read
  apply wp_bind.mpr
  refine interleave_rule tracks fun s₁ tracks₁ output₁ _ => ?_
  have bound : last < (accepted (pushed ++ s.incoming.headD [])).length := by
    have entry := List.getElem?_eq_getElem behind
    exact (List.getElem?_eq_some_iff.mp (accepted_entry entry)).1
  generalize pushed ++ s.incoming.headD [] = pushed₁ at bound tracks₁ next
  have most : auditReadMaxRecords = 32 := rfl
  have size : batchSize = 32 := rfl
  have len_eq := tracks₁.holds.len_eq
  have slots : auditRingCapacity = 256 := rfl
  obtain ⟨batch, taken, count, content⟩ := tracks₁.holds.snapshot_eq bound (show 0 < records.length by omega) rfl
  rw [wp_bind, wp_read, wp_bind, taken, wp_lift_ok, wp_pure]
  have length : batch.records.length = batch.len := by
    rw [content, List.length_mapIdx, List.length_take, List.length_drop]
    omega
  have follows : Follows (accepted all) true last batch.records := by
    rw [content]
    refine @follows_batch last _ (max last ((accepted pushed₁).length - s₁.ring.len)) _ _ ?_ (by omega) ?_
    · intro i event found
      rw [List.getElem?_take] at found
      split_ifs at found with inside
      rw [List.getElem?_drop] at found
      refine ⟨?_, tracks₁.holds.stamped _ _ found, ?_⟩
      · rw [← tracks₁.rest]
        exact accepted_entry found
      · refine accepted_errno (fun e mem => recorded e ?_) found
        rw [← tracks₁.rest]
        exact List.mem_append_left _ mem
    · intro none
      have := of_decide_eq_false none
      omega
  have answer := next s₁ batch.records tracks₁ output₁ (by omega) (by omega) follows
  rw [length] at answer
  rw [intOfWord_small (by omega)]
  exact answer

theorem stats_consistent {ring : AuditRing} {log : List AuditEvent} (holds : ring.Holds log) :
    ¬(auditRingCapacity < ring.len ∨ checkedAdd ring.successfulEvents ring.failedEvents ≠ some ring.totalEvents ∨
      ring.nextSequence - ring.len = 0 ∨
      checkedSub ring.nextSequence (ring.nextSequence - ring.len) ≠ some ring.len) := by
  have len_eq := holds.len_eq
  have next := holds.next_eq
  have limit := holds.limit
  have largest : auditLogLimit = 2 ^ 64 - 2 := rfl
  have split : log.length = ring.successfulEvents + ring.failedEvents := by
    rw [holds.successful_eq, holds.failed_eq, List.length_eq_countP_add_countP (fun event => decide (event.errno = 0))]
    congr 1
    exact List.countP_congr fun event _ => by simp
  rintro (large | sum | zero | difference)
  · omega
  · exact sum (checkedAdd_eq_some.mpr ⟨by omega, by rw [holds.total_eq, split]⟩)
  · omega
  · refine difference ?_
    rw [checkedSub, if_pos (Nat.sub_le _ _)]
    congr 1
    omega

theorem loadStats_rule {Q : Except Int IpcStatsV1 → Shell → Prop} {E : Fault → Prop} (tracks : Tracks all pushed s)
    (next : ∀ s' stats, Tracks all (pushed ++ s.incoming.headD []) s' → s'.output = s.output →
      s.ring.pushAll (s.incoming.headD []) = .ok s'.ring → stats.nextSequence = s'.ring.nextSequence → Q (.ok stats) s') :
    wp shell.loadStats Q E s := by
  unfold Environment.loadStats
  apply wp_bind.mpr
  apply wp_bind.mpr
  refine interleave_rule tracks fun s₁ tracks₁ output₁ run => ?_
  rw [wp_bind, wp_read, tracks₁.holds.stats_eq, wp_bind, wp_lift_ok, wp_pure]
  dsimp only [AuditStatsSnapshot.toRecord]
  rw [if_neg (by decide), if_neg (by decide), if_neg (by simp), if_neg (stats_consistent tracks₁.holds)]
  exact next s₁ _ tracks₁ output₁ run rfl

/-! ### The command -/

/-- The loop ends within the number of rounds, with the exit code 0 and the whole range accounted for. -/
theorem readLoop_rule {rounds count : Nat} {records : List AuditRecordV1} (recorded : ∀ event ∈ all, event.Recorded)
    (tracks : Tracks all pushed s) (tail : through ≤ (accepted pushed).length) (buffer : records.length = batchSize)
    (shown : Shown (accepted all) cursor through s.output last) (enough : through - last < rounds) :
    wp (shell.readLoop through rounds records last count)
      (fun r s' => r = some 0 ∧ Accounts (accepted all) cursor through s'.output) (fun _ => False) s := by
  induction rounds generalizing s pushed records last count with
  | zero => omega
  | succ rounds ih =>
    unfold Environment.readLoop
    rw [wp_ite]
    split_ifs with more
    · unfold Environment.readRound
      apply wp_bind.mpr
      apply wp_bind.mpr
      refine read_rule tracks recorded (by omega) buffer fun s₁ batch tracks₁ output₁ some most follows => ?_
      have taken : (batch ++ records.drop batch.length).take batch.length = batch := List.take_left
      have size : (batch ++ records.drop batch.length).length = batchSize := by
        rw [List.length_append, List.length_drop]
        omega
      dsimp only
      rw [if_neg (by omega), if_neg (by omega), Int.toNat_natCast, if_neg (by omega), sliceTo, if_pos (by omega), taken]
      rw [wp_bind, wp_lift_ok, follows.valid fun _ => rfl]
      apply wp_bind.mpr
      refine wp_mono (showBatch_rule follows (output₁ ▸ shown)) ?_ fun _ impossible => impossible
      rintro ⟨left, last', count'⟩ s₂ ⟨ring₂, incoming₂, shown₂, stopped, went⟩
      dsimp only at shown₂ stopped went ⊢
      cases left with
      | true => exact ⟨rfl, (shown₂.accounts (stopped rfl)).summary⟩
      | false =>
        have tracks₂ : Tracks all (pushed ++ s.incoming.headD []) s₂ := ⟨ring₂ ▸ tracks₁.holds, incoming₂ ▸ tracks₁.rest⟩
        have progress := went rfl
        have tail₂ : through ≤ (accepted (pushed ++ s.incoming.headD [])).length := by
          refine Nat.le_trans tail (Nat.le_of_not_lt fun shorter => ?_)
          have entry := List.getElem?_eq_getElem shorter
          have inside := (List.getElem?_eq_some_iff.mp (@accepted_entry _ (s.incoming.headD []) _ _ entry)).1
          omega
        exact ih tracks₂ tail₂ size shown₂ (by omega)
    · exact ⟨rfl, (shown.accounts (Or.inl (by omega))).summary⟩

/-- For every log, cursor and interleaving, `auditctl read` ends with exit code 0 and accounts for
every event between the cursor and the tail that the log has at the start. What it reads there is what the system calls give
to a caller that may read the log. -/
theorem auditctl_read_accounts (events : List AuditEvent) (incoming : List (List AuditEvent)) (cursor : Nat) (ring : AuditRing)
    (reached : AuditRing.new.pushAll events = .ok ring) (recorded : ∀ event ∈ events ++ incoming.flatten, event.Recorded) :
    (∃ first, ring.pushAll (incoming.headD []) = .ok first ∧
      ∀ rounds, first.nextSequence - 1 - cursor < rounds →
        ∃ s, readRecords rounds cursor ⟨ring, incoming, []⟩ = .ok (some 0, s) ∧
          Accounts (accepted (events ++ incoming.flatten)) cursor (first.nextSequence - 1) s.output) ∧
    ∀ (P : Platform) (s : System P) id task, s.kernel.current = some id → s.kernel.tasks id = some task →
      checkPermission task.subject = .ok () → AnswersShell s task := by
  refine ⟨?_, fun P s id task current found authorised => answersShell current found authorised⟩
  have start : Tracks (events ++ incoming.flatten) events ⟨ring, incoming, []⟩ := by
    obtain ⟨other, run, holds⟩ := pushAll_holds events
    obtain rfl := Except.ok.inj (reached.symm.trans run)
    exact ⟨holds, rfl⟩
  obtain ⟨first, run, holds⟩ := @pushAll_accepted _ _ (incoming.headD []) start.holds
  refine ⟨first, run, fun rounds enough => ?_⟩
  have spec : wp (readRecords rounds cursor)
      (fun r s' => r = some 0 ∧ Accounts (accepted (events ++ incoming.flatten)) cursor (first.nextSequence - 1) s'.output)
      (fun _ => False) ⟨ring, incoming, []⟩ := by
    unfold readRecords Environment.readRecords
    apply wp_bind.mpr
    refine loadStats_rule start fun s₁ stats tracks₁ output₁ pushed₁ next => ?_
    obtain rfl := Except.ok.inj (run.symm.trans pushed₁)
    dsimp only
    rw [next]
    have tail : s₁.ring.nextSequence - 1 ≤ (accepted (events ++ incoming.headD [])).length := by
      rw [holds.next_eq]
      exact Nat.le_refl _
    exact readLoop_rule recorded tracks₁ tail List.length_replicate (output₁ ▸ Shown.nothing) enough
  obtain ⟨_, s, ended, rfl, accounts⟩ := wp_returns spec
  exact ⟨s, ended, accounts⟩

/-- Five events of the log are overwritten at the start; one more is appended before the statistics are read, and two before
the first batch. -/
theorem auditctl_read_accounts_gap : ∃ event ring first s, AuditEvent.Recorded event ∧
    AuditRing.new.pushAll (List.replicate 261 event) = .ok ring ∧ ring.overwrittenEvents = 5 ∧ ring.pushAll [event] = .ok first ∧
    first.nextSequence = 263 ∧ readRecords 263 0 ⟨ring, [[event], [event, event]], []⟩ = .ok (some 0, s) ∧
    Accounts (accepted (List.replicate 264 event)) 0 262 s.output := by
  have recorded := AuditEvent.Recorded.control .ipcStat ⟨2, 1000, .empty⟩ 0 .permissionDenied 0
  generalize AuditEvent.fromControlFailure .ipcStat ⟨2, 1000, .empty⟩ 0 .permissionDenied 0 = event at recorded
  obtain ⟨ring, run, holds⟩ := pushAll_holds (List.replicate 261 event)
  have whole : List.replicate 261 event ++ [[event], [event, event]].flatten = List.replicate 264 event :=
    @List.replicate_append_replicate 261 _ event 3
  have length : ∀ n ≤ 264, (accepted (List.replicate n event)).length = n := by
    intro n few
    have limit : auditLogLimit = 2 ^ 64 - 2 := rfl
    rw [accepted, List.length_mapIdx, List.length_take, List.length_replicate]
    omega
  obtain ⟨⟨first, pushed, reads⟩, _⟩ := auditctl_read_accounts (List.replicate 261 event) [[event], [event, event]] 0 ring run (by
    rw [whole]
    intro other member
    rw [List.eq_of_mem_replicate member]
    exact recorded)
  have next : first.nextSequence = 263 := by
    obtain ⟨_, pushed', holds'⟩ := @pushAll_accepted _ _ [event] holds
    obtain rfl := Except.ok.inj (pushed.symm.trans pushed')
    rw [holds'.next_eq, show List.replicate 261 event ++ [event] = List.replicate 262 event from List.replicate_succ'.symm, length 262 (by decide)]
  obtain ⟨s, ended, accounts⟩ := reads 263 (by omega)
  rw [whole, next] at accounts
  refine ⟨event, ring, first, s, recorded, run, ?_, pushed, next, ended, accounts⟩
  have capacity : auditRingCapacity = 256 := rfl
  rw [holds.overwritten_eq, holds.len_eq, length 261 (by decide)]
  omega

end Auditctl

end SecureIpc
