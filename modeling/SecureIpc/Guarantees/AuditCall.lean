import SecureIpc.Guarantees.Audit
import SecureIpc.Guarantees.AuditRead
import SecureIpc.Mm.UserView
import SecureIpc.Run.Quiet

/-! `sys_audit_read` from end to end: what it returns, what it writes and what it records. -/

namespace SecureIpc
open Lib

/-! ### The records in the user's array -/

theorem AuditRecordV1.bytes_length (record : AuditRecordV1) : record.bytes.length = auditRecordV1Size := by
  simp [bytes, auditRecordV1Size]

theorem getElem_flatMap {α β : Type} {f : α → List β} {size : Nat} (each : ∀ a, (f a).length = size) {list : List α} {i j : Nat}
    (here : i < list.length) (inside : j < size) :
    (list.flatMap f)[size * i + j]? = (f list[i])[j]? := by
  induction list generalizing i with
  | nil => cases here
  | cons a rest ih =>
    rw [List.flatMap_cons]
    cases i with
    | zero => rw [Nat.mul_zero, Nat.zero_add, List.getElem?_append_left (by rw [each]; exact inside), List.getElem_cons_zero]
    | succ i =>
      rw [List.getElem?_append_right (by rw [each, Nat.mul_succ]; omega), each,
        show size * (i + 1) + j - size = size * i + j by rw [Nat.mul_succ]; omega, List.getElem_cons_succ]
      exact ih (Nat.lt_of_succ_lt_succ here)

theorem flatMap_bytes_length (records : List AuditRecordV1) :
    (records.flatMap AuditRecordV1.bytes).length = auditRecordV1Size * records.length := by
  induction records with
  | nil => rfl
  | cons record rest ih =>
    rw [List.flatMap_cons, List.length_append, ih, record.bytes_length, List.length_cons, Nat.mul_succ, Nat.add_comm]

/-- The copy loop writes records as long as their pages are writable. -/
theorem copyRecords_spec {layout : Layout} {mm : Mm} {space : MemorySet} (user : UserSpace layout mm space) {batch : AuditBatch}
    {start index : Nat} {records : List AuditRecordV1}
    (rest : ∀ j (inside : j < records.length), batch.recordAt (index + j) = some records[j])
    (fits : start + (index + records.length) * auditRecordV1Size < 2 ^ 64) :
    wp (copyRecords batch space.token start records.length index) (fun r mm' =>
      Stored mm mm' space.userFrames ∧ ∃ m ≤ records.length,
        Written mm.mem mm'.mem space.token (start + index * auditRecordV1Size) ((records.take m).flatMap AuditRecordV1.bytes) ∧
        (0 < m → UserRange mm.mem space.token (start + index * auditRecordV1Size) (auditRecordV1Size * m) true) ∧
        (r = .ok () ∧ m = records.length ∨ r = .error .invalidAddress ∧ m < records.length)) (fun _ => False) mm := by
  induction records generalizing mm index with
  | nil => exact ⟨.refl mm _, 0, Nat.le_refl 0, .nil, nofun, Or.inl ⟨rfl, rfl⟩⟩
  | cons record records ih =>
    have size : auditRecordV1Size = 80 := rfl
    rw [List.length_cons] at fits
    have head : batch.recordAt index = some record := rest 0 (Nat.zero_lt_succ _)
    have tail : ∀ j (inside : j < records.length), batch.recordAt (index + 1 + j) = some records[j] := by
      intro j inside
      have next := rest (j + 1) (Nat.succ_lt_succ inside)
      rwa [show index + (j + 1) = index + 1 + j by omega] at next
    rw [List.length_cons]
    unfold copyRecords
    rw [head]
    dsimp only
    rw [wp_bind, addWord_ok (show start + index * auditRecordV1Size < 2 ^ 64 by rw [size] at fits ⊢; omega), wp_lift_ok, wp_bind]
    have sized := record.bytes_length
    generalize bytes_eq : record.bytes = bytes at sized ⊢
    have nonempty : bytes ≠ [] := List.ne_nil_of_length_pos (by rw [sized]; decide)
    by_cases range : UserRange mm.mem space.token (start + index * auditRecordV1Size) bytes.length true
    · obtain ⟨mem₁, run, written⟩ := copyToUser_ok nonempty user.distinct range
      have stored := wp_ok (copyToUser_stored user _ bytes) run
      have user₁ := user.stored stored fun _ => userFrames_subset
      refine wp_of_run run ?_
      refine wp_mono (ih user₁ tail (by rw [size] at fits ⊢; omega)) ?_ fun _ impossible => impossible
      intro r mm₂ both
      obtain ⟨later, m, most, more, ranges, result⟩ := both
      have next : start + (index + 1) * auditRecordV1Size = start + index * auditRecordV1Size + bytes.length := by
        rw [sized, Nat.add_mul, Nat.one_mul, Nat.add_assoc]
      rw [next] at more ranges
      have same := written.translate user.distinct range
      have whole : UserRange mm.mem space.token (start + index * auditRecordV1Size)
          (bytes.length + auditRecordV1Size * m) true := by
        by_cases none : m = 0
        · rw [none, Nat.mul_zero, Nat.add_zero]
          exact range
        · exact range.append (.congr (fun vpn => (same vpn).symm) (ranges (Nat.pos_of_ne_zero none)))
      have taken : ((records.take m).flatMap AuditRecordV1.bytes).length = auditRecordV1Size * m := by
        rw [flatMap_bytes_length, List.length_take, Nat.min_eq_left most]
      refine ⟨stored.trans later, m + 1, Nat.succ_le_succ most, ?_, fun _ => ?_, ?_⟩
      · rw [List.take_succ_cons, List.flatMap_cons, bytes_eq]
        refine written.append user.distinct ?_ more
        rw [taken]
        exact whole
      · have total : auditRecordV1Size * (m + 1) = bytes.length + auditRecordV1Size * m := by
          rw [sized, Nat.mul_succ, Nat.add_comm]
        rw [total]
        exact whole
      · rcases result with ⟨ok, all⟩ | ⟨failed, less⟩
        · exact Or.inl ⟨ok, congrArg (· + 1) all⟩
        · exact Or.inr ⟨failed, Nat.succ_lt_succ less⟩
    · refine wp_of_run (copyToUser_refused nonempty range) ?_
      exact ⟨.refl mm _, 0, Nat.zero_le _, .nil, nofun, Or.inr ⟨rfl, Nat.zero_lt_succ _⟩⟩

section
variable {P : Platform} {s s' : System P} {id : Nat} {task : TaskControlBlock}

theorem checkOutputRange_ok {start count : Nat} (run : checkOutputRange start count auditRecordV1Size = .ok ()) :
    start + count * auditRecordV1Size < 2 ^ 64 := by
  unfold checkOutputRange checkedMul at run
  split at run
  · cases run
  · rename_i bytes product
    split at product
    · obtain rfl := Option.some.inj product
      split at run
      · cases run
      · split at run
        · cases run
        · rename_i sum
          exact (checkedAdd_eq_some.mp sum).1
    · cases product

theorem checkOutputRange_error {start count : Nat} {error : IpcError}
    (run : checkOutputRange start count auditRecordV1Size = .error error) : error = .invalidAddress := by
  unfold checkOutputRange at run
  split at run
  · exact (Except.error.inj run).symm
  · split at run
    · exact (Except.error.inj run).symm
    · split at run
      · exact (Except.error.inj run).symm
      · cases run

/-- The user's array from `records` on holds the first `m` records of a batch, and no other byte of
memory has changed. -/
structure Delivered (batch : AuditBatch) (mem mem' : PhysMem) (token records m : Nat) : Prop where
  inside : ∀ i < m, ∃ record, batch.recordAt i = some record ∧
    ∀ j (less : j < record.bytes.length), userByte mem' token (records + 80 * i + j) = some record.bytes[j]
  outside : ∀ pa, (∀ i < 80 * m, (PageTable.fromToken token).translateVa mem (VirtAddr.ofUsize (records + i)) ≠ some pa) →
    mem' pa = mem pa

theorem Delivered.none {batch : AuditBatch} {mem : PhysMem} {token records : Nat} : Delivered batch mem mem token records 0 :=
  ⟨nofun, fun _ _ => rfl⟩

theorem Written.delivered {batch : AuditBatch} {mem mem' : PhysMem} {token start m : Nat} {records : List AuditRecordV1}
    (distinct : DistinctFrames mem token) (entries : ∀ j (inside : j < records.length), batch.recordAt j = some records[j])
    (most : m ≤ records.length) (written : Written mem mem' token start ((records.take m).flatMap AuditRecordV1.bytes))
    (range : 0 < m → UserRange mem token start (auditRecordV1Size * m) true) : Delivered batch mem mem' token start m := by
  have total : ((records.take m).flatMap AuditRecordV1.bytes).length = auditRecordV1Size * m := by
    rw [flatMap_bytes_length, List.length_take, Nat.min_eq_left most]
  refine ⟨fun i less => ?_, fun pa outside => ?_⟩
  · refine ⟨records[i], entries i (by omega), fun j inside => ?_⟩
    have small : j < auditRecordV1Size := by
      rw [← records[i].bytes_length]
      exact inside
    have place : auditRecordV1Size * i + j < ((records.take m).flatMap AuditRecordV1.bytes).length := by
      rw [total]
      have size : auditRecordV1Size = 80 := rfl
      rw [size] at small ⊢
      omega
    have byte := written.userByte distinct (by rw [total]; exact range (by omega)) place
    have here := getElem_flatMap AuditRecordV1.bytes_length (show i < (records.take m).length by rw [List.length_take]; omega) small
    rw [List.getElem?_eq_getElem place, List.getElem?_eq_getElem (by rw [AuditRecordV1.bytes_length]; exact small)] at here
    have value := Option.some.inj here
    rw [Nat.add_assoc]
    refine byte.trans (congrArg some (value.trans ?_))
    simp only [List.getElem_take]
  · refine written.outside pa fun i less => outside i ?_
    rw [total] at less
    exact less

theorem Audit.snapshot_run {afterSequence capacity : Nat} {batch : AuditBatch}
    (snapshot : s.auditRing.snapshot afterSequence capacity = .ok batch) :
    Audit.snapshot afterSequence capacity s = .ok (batch, s) := by
  simp only [Audit.snapshot, bind, StateT.bind, Program.read, Except.bind, snapshot]
  rfl

/-- The body of the call for a caller with permission: all records, or an error after some of them. -/
theorem readRecords_outcome (sound : Sound s.kernel) (found : s.kernel.tasks id = some task) (alive : task.isZombie = false)
    (permitted : checkPermission task.subject = .ok ()) (records : Nat) {capacity afterSequence : Nat} {batch : AuditBatch}
    (snapshot : s.auditRing.snapshot afterSequence capacity = .ok batch) (nothing : capacity = 0 → batch.len = 0)
    (complete : batch.records.length = batch.len) :
    wp (readRecords task.subject task.getUserToken records capacity afterSequence) (fun r s' => ∃ mem,
      s' = { s with kernel := s.kernel.setMem mem } ∧
      (r = .ok batch.len ∧ (batch.len = 0 → mem = s.kernel.mm.mem) ∧
          Delivered batch s.kernel.mm.mem mem task.getUserToken records batch.len ∨
        r = .error .invalidAddress ∧ ∃ m < batch.len, Delivered batch s.kernel.mm.mem mem task.getUserToken records m))
      (fun _ => False) s := by
  have user := sound.user found alive
  unfold readRecords
  rw [permitted]
  dsimp only
  by_cases none : capacity = 0
  · rw [if_pos none]
    refine ⟨s.kernel.mm.mem, rfl, Or.inl ⟨?_, fun _ => rfl, ?_⟩⟩
    · rw [nothing none]
    · rw [nothing none]
      exact .none
  rw [if_neg none, wp_bind]
  refine wp_of_run (Audit.snapshot_run snapshot) ?_
  by_cases empty : batch.len = 0
  · rw [if_pos empty]
    refine ⟨s.kernel.mm.mem, rfl, Or.inl ⟨?_, fun _ => rfl, ?_⟩⟩
    · rw [empty]
    · rw [empty]
      exact .none
  rw [if_neg empty]
  cases checked : checkOutputRange records batch.len auditRecordV1Size with
  | error error =>
    obtain rfl := checkOutputRange_error checked
    exact ⟨s.kernel.mm.mem, rfl, Or.inr ⟨rfl, 0, Nat.pos_of_ne_zero empty, .none⟩⟩
  | ok =>
    have entries : ∀ j (inside : j < batch.records.length), batch.recordAt (0 + j) = some batch.records[j] := by
      intro j inside
      rw [Nat.zero_add, batch.recordAt_eq complete, List.getElem?_eq_getElem inside]
    have fits : records + (0 + batch.records.length) * auditRecordV1Size < 2 ^ 64 := by
      rw [Nat.zero_add, complete]
      exact checkOutputRange_ok checked
    have copies := copyRecords_spec user entries fits
    rw [complete, Nat.zero_mul, Nat.add_zero] at copies
    dsimp only
    rw [wp_bind, wp_kernel]
    refine wp_zoom ?_
    refine wp_mono copies ?_ fun _ impossible => impossible
    rintro r ⟨mem, frames⟩ ⟨stored, m, most, written, range, result⟩
    obtain rfl : frames = s.kernel.mm.frames := stored.allocator
    have delivered := written.delivered user.distinct (by simpa using entries) (by rw [complete]; exact most) range
    rcases result with ⟨rfl, rfl⟩ | ⟨rfl, less⟩
    · exact ⟨mem, rfl, Or.inl ⟨rfl, fun zero => absurd zero empty, delivered⟩⟩
    · exact ⟨mem, rfl, Or.inr ⟨rfl, m, less, delivered⟩⟩

/-- One failed `AUDIT_READ` event is appended to the ring; nothing happens when the sequence numbers
are exhausted. -/
structure ReadFailureRecorded (s s' : System P) (task : TaskControlBlock) (capacity : Nat) : Prop where
  appended : s.auditRing.nextSequence < u64Max → ∃ event, event.operation = auditOpAuditRead ∧ event.errno = 14 ∧
    event.requestedAmount = capacity ∧ event.resultValue = 0 ∧ event.subjectPid = task.pid ∧
    event.sequence = s.auditRing.nextSequence ∧ s'.auditRing.nextSequence = s.auditRing.nextSequence + 1 ∧
    s'.auditRing.retained = (s.auditRing.retained ++ [event]).drop (s.auditRing.retained.length + 1 - 256)
  exhausted : ¬s.auditRing.nextSequence < u64Max → s'.auditRing = s.auditRing

theorem Logged.readFailure (holds : HoldsLog s) {capacity now : Nat} {base : System P} (same : base.auditRing = s.auditRing)
    (logged : Logged base (some (.fromControlFailure .auditRead task.subject capacity .invalidAddress now)) s') :
    ReadFailureRecorded s s' task capacity := by
  obtain ⟨auditRing, pushed, rfl⟩ := logged
  rw [same] at pushed
  have capacity_eq : auditRingCapacity = 256 := rfl
  have kept : s.auditRing.retained = (auditLog s).drop ((auditLog s).length - s.auditRing.len) := holds.window_eq
  refine ⟨fun room => ?_, fun full => ?_⟩
  · obtain ⟨after, run, log⟩ := AuditRing.push_holds holds (holds.room_iff.mp room)
    obtain rfl := Except.ok.inj (pushed.symm.trans run)
    refine ⟨.stampAfter (auditLog s) (.fromControlFailure .auditRead task.subject capacity .invalidAddress now), rfl, rfl, rfl, rfl, rfl, holds.next_eq.symm, ?_, ?_⟩
    · rw [log.next_eq, holds.next_eq, List.length_append]
      rfl
    · have retained := log.window_eq
      have before := holds.len_eq
      have now := log.len_eq
      rw [List.length_append, List.length_singleton] at retained now
      rw [kept, List.length_drop, ← List.drop_append_of_le_length (Nat.sub_le _ _), List.drop_drop]
      refine Eq.trans retained (congrArg (List.drop · _) ?_)
      omega
  · rw [AuditRing.push_exhausted (Nat.le_of_not_lt full)] at pushed
    exact (Except.ok.inj pushed).symm

/-! ### A full log -/

structure RootRuns (s : System P) : Prop where
  reachable : Reachable s
  current : s.kernel.current = some initproc
  task : ∃ task, s.kernel.tasks initproc = some task ∧ task.Quiet ∧ task.subject.uid = 0

theorem auditLog_observe {k : Kernel P} {auditRing : AuditRing} {observation : Observation}
    (silent : ∀ event, observation ≠ .recorded event) :
    auditLog ⟨k.observe observation, auditRing⟩ = auditLog ⟨k, auditRing⟩ := by
  have more : recorded (k.observe observation).trace = recorded k.trace := by
    show recorded (k.trace ++ [(k.current, observation)]) = recorded k.trace
    unfold recorded
    rw [List.filterMap_append]
    cases observation with
    | recorded event => exact absurd rfl (silent event)
    | _ => exact List.append_nil _
  exact congrArg AuditRing.accepted more

/-- Flags other than 0 make `sys_ipc_stat` record an event and return. -/
theorem RootRuns.refused_stat {s : System P} (runs : RootRuns s) :
    ∃ s' : System P, RootRuns s' ∧ ∃ event, auditLog s' = AuditRing.logAfter (auditLog s) event := by
  obtain ⟨task, found, quiet, root⟩ := runs.task
  have formed := (runs.reachable.sound.task found).signals
  have holds := runs.reachable.holdsLog
  have permission : checkPermission task.subject = .ok () := if_pos (Or.inl root)
  have spec : wp (step (ecall 603 0 0 1)) (fun _ s' => s'.kernel.current = some initproc ∧
      s'.kernel.tasks initproc = some task ∧ ∃ event, auditLog s' = AuditRing.logAfter (auditLog s) event) (fun _ => False) s := by
    refine ecall_rule runs.current found (by decide) fun mem _ => ?_
    -- The state in which the call starts differs from `s` in memory, the clock, the console and the trace.
    generalize started : Kernel.observe _ _ = k
    have current : k.current = some initproc := started ▸ runs.current
    have found₁ : k.tasks initproc = some task := started ▸ found
    have log : auditLog ⟨k, s.auditRing⟩ = auditLog s := by
      rw [← started]
      refine (auditLog_observe ?_).trans rfl
      simp
    show wp (do return some (← sysIpcStat 0 0 1)) _ _ _
    simp only [sysIpcStat, wp_bind, wp_kernel]
    rw [wp_callerContext current found₁]
    have refused : (readStats task.subject task.getUserToken 0 0 1 : SystemM P (IpcResult Nat)) =
        pure (.error .invalidArgument) := by
      unfold readStats
      rw [permission]
      rfl
    dsimp only
    rw [refused, wp_pure]
    unfold finishControlCall Audit.recordControlFailure
    simp only [wp_bind, wp_kernel, Audit.getTimeMs, wp_read, wp_pure]
    refine push_rule (fun s' logged => ?_) fun event f stopped => holds.push_ne_error event f stopped
    have current₂ : s'.kernel.current = some initproc := logged.current.trans current
    have found₂ : s'.kernel.tasks initproc = some task := (congrFun logged.tasks initproc).trans found₁
    have after := logged.log
    rw [log] at after
    refine finishSyscall_quiet current₂ found₂ formed quiet fun mem' => ⟨current₂, found₂, _, Eq.trans ?_ after⟩
    refine (auditLog_observe ?_).trans rfl
    simp
  obtain ⟨_, s', run, current, found', log⟩ := wp_returns spec
  exact ⟨s', ⟨runs.reachable.step _ run, current, task, found', quiet, root⟩, log⟩

/-- The log can be filled. -/
theorem RootRuns.full {s : System P} (runs : RootRuns s) (n : Nat) :
    ∃ s' : System P, RootRuns s' ∧ min n auditLogLimit ≤ (auditLog s').length := by
  induction n with
  | zero => exact ⟨s, runs, Nat.le_trans (Nat.min_le_left _ _) (Nat.zero_le _)⟩
  | succ n ih =>
    obtain ⟨s₁, runs₁, long⟩ := ih
    obtain ⟨s', runs', event, log⟩ := runs₁.refused_stat
    refine ⟨s', runs', ?_⟩
    rw [log]
    unfold AuditRing.logAfter
    split_ifs with room
    · rw [List.length_append, List.length_singleton]
      omega
    · omega

theorem sample_rootRuns : ∃ s : System sample, RootRuns s := by
  have ran : ((run sample [.schedule 0 []]).toOption.any fun s => s.kernel.current == some initproc &&
      (s.kernel.tasks initproc).any fun task => task.signals == 0 && !task.frozen && task.subject.uid == 0) = true := by
    decide +kernel
  simp only [Option.any_eq_true, toOption_eq_some, Bool.and_eq_true, beq_iff_eq, Bool.not_eq_true'] at ran
  obtain ⟨s, result, current, task, found, ⟨signals, running⟩, root⟩ := ran
  exact ⟨s, run_reachable result, current, task, found, ⟨signals, running⟩, root⟩

/-! ### The call -/

/-- `sys_audit_read` of a caller with permission never stops the kernel. It returns the number of
records of the snapshot, all of them in the user's array, or -14 with a prefix of them. -/
theorem audit_read_outcome (reachable : Reachable s) (current : s.kernel.current = some id)
    (found : s.kernel.tasks id = some task)
    (permitted : task.subject.uid = 0 ∨ task.subject.capabilities.contains .AUDIT_READ = true)
    (records capacity : Nat) {afterSequence : Nat} (word : afterSequence < 2 ^ 64) :
    ∃ r s' batch, sysAuditRead records capacity afterSequence s = .ok (r, s') ∧
      s.auditRing.snapshot afterSequence capacity = .ok batch ∧
      (r = batch.len ∧ s'.auditRing = s.auditRing ∧
          Delivered batch s.kernel.mm.mem s'.kernel.mm.mem task.getUserToken records batch.len ∧
          (batch.len = 0 → ∀ pointer, sysAuditRead pointer capacity afterSequence s = .ok (0, s)) ∨
        r = -14 ∧ ReadFailureRecorded s s' task capacity ∧
          ∃ m < batch.len, Delivered batch s.kernel.mm.mem s'.kernel.mm.mem task.getUserToken records m) := by
  have sound := reachable.sound
  have holds := reachable.holdsLog
  have alive : task.isZombie = false := sound.table.current_live current (table_place found)
  have permission : checkPermission task.subject = .ok () := if_pos permitted
  obtain ⟨batch, snapshot, len, entries⟩ := holds.snapshot_window word capacity
  have few : batch.len ≤ 32 := by
    rw [len]
    exact Nat.min_le_left _ _
  have complete : batch.records.length = batch.len := by
    rw [entries, List.length_mapIdx, List.length_take]
    omega
  have nothing : capacity = 0 → batch.len = 0 := by
    intro none
    omega
  have body := fun pointer => readRecords_outcome sound found alive permission pointer snapshot nothing complete
  have called : ∀ pointer, wp (sysAuditRead pointer capacity afterSequence) (fun r s' => ∃ mem,
      r = batch.len ∧ s' = { s with kernel := s.kernel.setMem mem } ∧ (batch.len = 0 → mem = s.kernel.mm.mem) ∧
          Delivered batch s.kernel.mm.mem mem task.getUserToken pointer batch.len ∨
        r = -14 ∧ s'.kernel.mm.mem = mem ∧ ReadFailureRecorded s s' task capacity ∧
          ∃ m < batch.len, Delivered batch s.kernel.mm.mem mem task.getUserToken pointer m) (fun _ => False) s := by
    intro pointer
    unfold sysAuditRead
    rw [wp_bind, wp_kernel, wp_callerContext current found]
    dsimp only
    rw [wp_bind]
    refine wp_mono (body pointer) ?_ fun _ impossible => impossible
    intro r s₁ ⟨mem, same, result⟩
    rcases result with ⟨rfl, untouched, delivered⟩ | ⟨rfl, delivered⟩
    · have value : intOfWord batch.len = batch.len := by
        have all : ∀ n ≤ 32, intOfWord n = n := by decide
        exact all batch.len few
      exact ⟨mem, Or.inl ⟨value, same, untouched, delivered⟩⟩
    · subst same
      unfold finishControlCall Audit.recordControlFailure
      simp only [wp_bind, wp_kernel, Audit.getTimeMs, wp_read, wp_pure]
      refine push_rule (fun s' logged => ?_) fun event f stopped => holds.push_ne_error event f stopped
      have recorded : ReadFailureRecorded s s' task capacity := by
        apply logged.readFailure holds
        rfl
      refine ⟨mem, Or.inr ⟨rfl, ?_, recorded, delivered⟩⟩
      obtain ⟨_, _, rfl⟩ := logged
      rfl
  obtain ⟨r, s', run, mem, outcome⟩ := wp_returns (called records)
  refine ⟨r, s', batch, run, snapshot, ?_⟩
  rcases outcome with ⟨value, rfl, _, delivered⟩ | ⟨value, rfl, recorded, delivered⟩
  · refine Or.inl ⟨value, rfl, delivered, fun none pointer => ?_⟩
    obtain ⟨r', s₁, again, mem', outcome⟩ := wp_returns (called pointer)
    rcases outcome with ⟨value', same, untouched, _⟩ | ⟨_, _, _, m, less, _⟩
    · rw [again, value', none, same, untouched none]
      rfl
    · omega
  · exact Or.inr ⟨value, recorded, delivered⟩

end

/-- The first process reads its own refused call back. -/
theorem sample_audit_read : ∃ s : System sample, Reachable s ∧ s.kernel.current = some initproc ∧
    ∃ r s' batch, sysAuditRead 0x10000 4 0 s = .ok (r, s') ∧ s.auditRing.snapshot 0 4 = .ok batch ∧
      (r = batch.len ∨ r = -14) := by
  obtain ⟨s₀, runs₀⟩ := sample_rootRuns
  obtain ⟨s, runs, _⟩ := runs₀.refused_stat
  obtain ⟨task, found, _, root⟩ := runs.task
  obtain ⟨r, s', batch, ran, snapshot, outcome⟩ :=
    audit_read_outcome runs.reachable runs.current found (Or.inl root) 0x10000 4 (show 0 < 2 ^ 64 by decide)
  exact ⟨s, runs.reachable, runs.current, r, s', batch, ran, snapshot, outcome.imp And.left And.left⟩

/-- With the sequence numbers used up, a failed read is not recorded. -/
theorem exhausted_read_not_recorded : ∃ (s s' : System sample) (task : TaskControlBlock), Reachable s ∧
    s.kernel.current = some initproc ∧ s.kernel.tasks initproc = some task ∧ task.subject.uid = 0 ∧
    sysAuditRead 0 1 0 s = .ok (-14, s') ∧ s'.auditRing = s.auditRing := by
  obtain ⟨s₀, runs₀⟩ := sample_rootRuns
  obtain ⟨s, runs, long⟩ := runs₀.full auditLogLimit
  rw [Nat.min_self] at long
  obtain ⟨task, found, _, root⟩ := runs.task
  have holds := runs.reachable.holdsLog
  have permission : checkPermission task.subject = .ok () := if_pos (Or.inl root)
  have exhausted : u64Max ≤ s.auditRing.nextSequence := by
    have next := holds.next_eq
    have largest : auditLogLimit = u64Max - 1 := rfl
    omega
  obtain ⟨batch, snapshot, len, entries⟩ := holds.snapshot_window (show 0 < 2 ^ 64 by decide) 1
  have one : batch.len = 1 := by
    have retained := congrArg List.length (holds.retainedAfter_eq 0)
    have kept := holds.len_eq
    have largest : auditLogLimit = 2 ^ 64 - 2 := rfl
    have size : auditRingCapacity = 256 := rfl
    have most : auditReadMaxRecords = 32 := rfl
    rw [List.length_drop] at retained
    omega
  have refused : checkOutputRange 0 1 auditRecordV1Size = .error .invalidAddress := rfl
  have body : wp (readRecords task.subject task.getUserToken 0 1 0) (fun r s' => r = .error .invalidAddress ∧ s' = s)
      (fun _ => False) s := by
    unfold readRecords
    rw [permission]
    dsimp only
    rw [if_neg Nat.one_ne_zero, wp_bind]
    refine wp_of_run (Audit.snapshot_run snapshot) ?_
    rw [one, if_neg Nat.one_ne_zero, refused]
    exact ⟨rfl, rfl⟩
  have spec : wp (sysAuditRead 0 1 0) (fun r s' => r = -14 ∧ s'.auditRing = s.auditRing) (fun _ => False) s := by
    unfold sysAuditRead
    rw [wp_bind, wp_kernel, wp_callerContext runs.current found]
    dsimp only
    rw [wp_bind]
    refine wp_mono body ?_ fun _ impossible => impossible
    intro r s₁ ⟨failed, unchanged⟩
    subst failed unchanged
    unfold finishControlCall Audit.recordControlFailure
    simp only [wp_bind, wp_kernel, Audit.getTimeMs, wp_read, wp_pure]
    refine push_rule (fun s' logged => ⟨rfl, ?_⟩) fun event f stopped => holds.push_ne_error event f stopped
    obtain ⟨auditRing, pushed, rfl⟩ := logged
    rw [AuditRing.push_exhausted exhausted] at pushed
    exact (Except.ok.inj pushed).symm
  obtain ⟨r, s', ran, rfl, same⟩ := wp_returns spec
  exact ⟨s, s', task, runs.reachable, runs.current, found, root, ran, same⟩

end SecureIpc
