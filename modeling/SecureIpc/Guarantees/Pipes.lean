import SecureIpc.Guarantees.Isolation

/-! A `sys_pipe` that fails leaves everything but the first word of the user's array as it was. -/

namespace SecureIpc
open Lib

section
variable {P : Platform} {s s' : System P} {id : Nat} {task : TaskControlBlock}

/-! ### Copying the descriptors -/

/-- The two words are copied one after the other; a failure has written the first at most. -/
theorem copyDescriptors_spec {layout : Layout} {mm : Mm} {space : MemorySet} (user : UserSpace layout mm space)
    (pipe readFd writeFd : Nat) :
    wp (copyDescriptors space.token pipe readFd writeFd) (fun copied mm' => Stored mm mm' space.userFrames ∧
      (copied = .ok () ∨ copied = .error .invalidAddress ∧ ∀ x,
        (∀ i < 8, (PageTable.fromToken space.token).translateVa mm.mem (VirtAddr.ofUsize (pipe + i)) ≠ some x) →
        mm'.mem x = mm.mem x)) (fun _ => False) mm := by
  have words : ∀ value, toBytes 8 value ≠ [] := fun value => List.ne_nil_of_length_pos (by rw [toBytes_length]; decide)
  unfold copyDescriptors
  apply wp_bind.mpr
  by_cases first : UserRange mm.mem space.token pipe (toBytes 8 readFd).length true
  · obtain ⟨mem₁, run, written⟩ := copyToUser_ok (words readFd) user.distinct first
    have stored := wp_ok (copyToUser_stored user pipe (toBytes 8 readFd)) run
    have user₁ := user.stored stored fun _ => userFrames_subset
    refine wp_of_run run ?_
    dsimp only
    generalize (pipe + 8) % 2 ^ 64 = next
    by_cases second : UserRange mem₁ space.token next (toBytes 8 writeFd).length true
    · obtain ⟨mem₂, run, _⟩ := copyToUser_ok (words writeFd) user₁.distinct second
      have later := wp_ok (copyToUser_stored user₁ next (toBytes 8 writeFd)) run
      exact wp_of_run run ⟨stored.trans later, Or.inl rfl⟩
    · have run : copyToUser space.token next (toBytes 8 writeFd) { mm with mem := mem₁ } = _ :=
        copyToUser_refused (words writeFd) second
      refine wp_of_run run ⟨stored, Or.inr ⟨rfl, fun x outside => written.outside x ?_⟩⟩
      rw [toBytes_length]
      exact outside
  · exact wp_of_run (copyToUser_refused (words readFd) first) ⟨Stored.refl mm _, Or.inr ⟨rfl, fun _ _ => rfl⟩⟩

/-! ### Rolling back -/

theorem Logged.mm {event : Option AuditEvent} (logged : Logged s event s') : s'.kernel.mm = s.kernel.mm := by
  cases event with
  | none => rw [show s' = s from logged]
  | some event =>
    obtain ⟨auditRing, pushed, rfl⟩ := logged
    rfl

theorem finishPipe_rollback {reader writer : File} {quota' : QuotaState} {request : IpcRequest} (error : IpcError)
    (accounted : Accounted task.fdTable task.security.quota)
    (reserved : task.security.quota.reservePipeFds 2 = .ok quota') :
    wp (finishPipe id ⟨request, ⟨.pipeFds, 2⟩⟩ (freeSlot task.fdTable) (freeSlot (fill task.fdTable reader)) (.error error))
      (fun r s' => r = ipcErrorToRet error ∧ s'.kernel.mm = s.kernel.mm ∧ ∃ n,
        s'.kernel.tasks = Kernel.set s.kernel.tasks id (some { task with fdTable := task.fdTable ++ List.replicate n none }))
      (fun _ => True)
      { s with kernel := s.kernel.setTask id { task with
          fdTable := fill (fill task.fdTable reader) writer, security := { task.security with quota := quota' } } } := by
  have longer : task.fdTable.length ≤ (((fill (fill task.fdTable reader) writer).set (freeSlot task.fdTable) none).set
      (freeSlot (fill task.fdTable reader)) none).length := by
    rw [List.length_set, List.length_set]
    exact Nat.le_trans (length_le_fill _ reader) (length_le_fill _ writer)
  obtain ⟨n, grown⟩ : ∃ n, ((fill (fill task.fdTable reader) writer).set (freeSlot task.fdTable) none).set
      (freeSlot (fill task.fdTable reader)) none = task.fdTable ++ List.replicate n none :=
    ⟨_, eq_append_none (slot_released task.fdTable reader writer) longer⟩
  unfold finishPipe
  simp only [wp_bind, wp_kernel, wp_innerOf, Kernel.setTask_same, wp_putInner, wp_pure]
  have back := (pipe_released reader writer accounted reserved).1
  refine complete_rule back (fun s' logged => ?_) fun _ _ _ => trivial
  refine ⟨rfl, logged.mm, n, ?_⟩
  have tasks := logged.tasks
  rw [← grown]
  simp only [Kernel.setTask, tasks, Kernel.set_set]

theorem finishPipe_commit {reader writer : File} {quota' : QuotaState} {request : IpcRequest} (isReader : reader.isPipe = true)
    (isWriter : writer.isPipe = true) (accounted : Accounted task.fdTable task.security.quota)
    (reserved : task.security.quota.reservePipeFds 2 = .ok quota') :
    wp (finishPipe id ⟨request, ⟨.pipeFds, 2⟩⟩ (freeSlot task.fdTable) (freeSlot (fill task.fdTable reader)) (.ok ()))
      (fun r _ => r = 0) (fun _ => True)
      { s with kernel := s.kernel.setTask id { task with
          fdTable := fill (fill task.fdTable reader) writer, security := { task.security with quota := quota' } } } := by
  obtain ⟨middle, last, first, second, _⟩ := pipe_registered reader writer accounted reserved isReader isWriter
  unfold finishPipe
  simp only [wp_bind, wp_kernel, wp_innerOf, Kernel.setTask_same, wp_putInner, wp_pure]
  rw [registerPipeFd_security first, wp_lift_ok, registerPipeFd_security second, wp_lift_ok]
  refine complete_rule (by exact rfl) (fun s' logged => ?_) fun _ _ _ => trivial
  exact rfl

/-- What a failed `sys_pipe` of task `id` leaves behind. -/
structure RolledBack (s s' : System P) (id : Nat) (task : TaskControlBlock) (pipe : Nat) : Prop where
  caller : ∃ n, s'.kernel.tasks id = some { task with fdTable := task.fdTable ++ List.replicate n none }
  others : ∀ other ≠ id, s'.kernel.tasks other = s.kernel.tasks other
  memory : Undisturbed s.kernel id s'.kernel.mm.mem
  firstWord : ∀ x, (∀ i < 8, (PageTable.fromToken task.getUserToken).translateVa s.kernel.mm.mem
    (VirtAddr.ofUsize (pipe + i)) ≠ some x) → s'.kernel.mm.mem x = s.kernel.mm.mem x
  unreferenced : ∀ other next fd endpoint, s'.kernel.tasks other = some next → next.file fd = some (.pipe endpoint) →
    endpoint.object.id ≠ s.kernel.nextPipeId

/-- Which error is returned: total descriptors, then pipe descriptors and pipe ids, then the user's array. -/
structure PipeError (s : System P) (task : TaskControlBlock) (r : Int) : Prop where
  tooManyFiles : r = -24 ↔ maxOpenFiles < task.security.quota.openFiles + 2
  exhausted : r = -28 ↔ task.security.quota.openFiles + 2 ≤ maxOpenFiles ∧
    (maxOpenPipeFds < task.security.quota.openPipes + 2 ∨ ¬s.kernel.nextPipeId + 1 < 2 ^ 64)
  otherwise : r ≠ -24 → r ≠ -28 → r = -14

theorem slot_append_none (table : List (Option File)) (n fd : Nat) :
    slot (table ++ List.replicate n none) fd = slot table fd := by
  by_cases old : fd < table.length
  · rw [slot, List.getElem?_append_left old, slot]
  · rw [slot_eq_none (Nat.le_of_not_lt old), slot, List.getElem?_append_right (Nat.le_of_not_lt old), List.getElem?_replicate]
    split <;> rfl

theorem rolledBack (sound : Sound s.kernel) (found : s.kernel.tasks id = some task) {pipe n : Nat}
    (tasks : s'.kernel.tasks =
      Kernel.set s.kernel.tasks id (some { task with fdTable := task.fdTable ++ List.replicate n none }))
    (within : s.kernel.Within task.memorySet.userFrames s'.kernel.mm.mem)
    (firstWord : ∀ x, (∀ i < 8, (PageTable.fromToken task.getUserToken).translateVa s.kernel.mm.mem
      (VirtAddr.ofUsize (pipe + i)) ≠ some x) → s'.kernel.mm.mem x = s.kernel.mm.mem x) :
    RolledBack s s' id task pipe where
  caller := ⟨n, by rw [tasks, Kernel.set_same]⟩
  others other different := by rw [tasks, Kernel.set_other different]
  memory := sound.isolated.undisturbed found within
  firstWord := firstWord
  unreferenced := by
    intro other next fd endpoint looked opened fresh
    -- every open pipe was open before, and a pipe that exists has a smaller id
    have old : ∃ before, s.kernel.tasks other = some before ∧ slot before.fdTable fd = some (.pipe endpoint) := by
      rw [tasks] at looked
      rcases setTask_cases looked with ⟨rfl, rfl⟩ | ⟨_, before⟩
      · rw [TaskControlBlock.file_eq_slot, slot_append_none] at opened
        exact ⟨task, found, opened⟩
      · exact ⟨next, before, opened⟩
    obtain ⟨before, present, file⟩ := old
    have known : s.kernel.pipes endpoint.object.id ≠ none := (sound.task present).files file
    exact known (sound.pipes.fresh (Nat.le_of_eq fresh.symm))

/-! ### The whole call -/

theorem sysPipe_rollback (sound : Sound s.kernel) (current : s.kernel.current = some id)
    (found : s.kernel.tasks id = some task) (pipe : Nat) :
    wp (sysPipe pipe) (fun r s' => r < 0 → RolledBack s s' id task pipe ∧ PipeError s task r) (fun _ => True) s := by
  have alive : task.isZombie = false := sound.table.current_live current (table_place found)
  have accounted := (sound.task found).accounted alive
  have unchanged : ∀ {s' : System P}, s'.kernel.tasks = s.kernel.tasks → s'.kernel.mm = s.kernel.mm →
      RolledBack s s' id task pipe := by
    intro s' tasks mm
    refine rolledBack (n := 0) sound found ?_ (fun x _ => by rw [mm]) fun x _ => by rw [mm]
    have same : s.kernel.setTask id task = s.kernel := setTask_same_task found
    have set := congrArg Kernel.tasks same
    rw [List.replicate_zero, List.append_nil, tasks]
    exact set.symm
  simp only [sysPipe, wp_bind, wp_kernel, wp_currentUserToken current found, wp_currentTask, current, wp_innerOf, found]
  refine preflight_rule ?_ ?_ fun _ _ _ => trivial
  · intro quota reservation _ reserve
    obtain ⟨quota', reserved, last⟩ := bind_ok reserve
    obtain ⟨rfl, rfl⟩ := Prod.mk.inj (Except.ok.inj last)
    obtain ⟨room, roomForPipe, _⟩ := reservePipeFds_ok reserved
    apply wp_bind.mpr
    rw [wp_kernel]
    apply makePipe_rule
    · intro full
      apply wp_bind.mpr
      have back := (pipe_released .stdin .stdin accounted reserved).1
      refine complete_rule back (fun s' logged => ?_) fun _ _ _ => trivial
      have same : s'.kernel.setTask id task = s'.kernel := by
        apply setTask_same_task
        rw [logged.tasks]
        exact found
      simp only [wp_bind, wp_kernel, wp_putInner, wp_pure]
      rw [same]
      intro _
      refine ⟨unchanged logged.tasks logged.mm, ?_, ?_, fun _ notFull => absurd rfl notFull⟩
      · exact ⟨(fun other => by cases other), fun many => absurd many (Nat.not_lt.mpr room)⟩
      · exact ⟨fun _ => ⟨room, Or.inr full⟩, fun _ => rfl⟩
    · intro available
      simp only [wp_bind, wp_kernel, TaskControlBlock.installFd_eq, fault, Except.mapError, wp_lift_ok, wp_putInner]
      refine wp_mm (fun copied m run => ?_) fun _ => trivial
      have copy : copyDescriptors task.memorySet.token pipe _ _ s.kernel.mm = .ok (copied, m) := run
      obtain ⟨stored, result⟩ := wp_ok (copyDescriptors_spec (sound.user found alive) pipe _ _) copy
      have within : s.kernel.Within task.memorySet.userFrames m.mem := stored.outside
      let s₁ : System P := { s with kernel := { ({ s.kernel with nextPipeId := s.kernel.nextPipeId + 1 }.setPipe
        s.kernel.nextPipeId (PipeRingBuffer.new.setWriteEnd s.kernel.nextPipeId)) with mm := m } }
      rcases result with rfl | ⟨rfl, firstWord⟩
      · refine wp_mono (finishPipe_commit (s := s₁) rfl rfl accounted reserved) ?_ fun _ _ => trivial
        intro r s' zero negative
        omega
      · refine wp_mono (finishPipe_rollback (s := s₁) .invalidAddress accounted reserved) ?_ fun _ _ => trivial
        intro r s' both _
        obtain ⟨value, memory, n, tasks⟩ := both
        rw [value]
        refine ⟨rolledBack sound found tasks ?_ ?_, ?_, ?_, fun _ _ => rfl⟩
        · rw [memory]
          exact within
        · rw [memory]
          exact firstWord
        · exact ⟨(fun other => by cases other), fun many => absurd many (Nat.not_lt.mpr room)⟩
        · refine ⟨(fun other => by cases other), fun both => ?_⟩
          rcases both.2 with many | last
          · exact absurd many (Nat.not_lt.mpr roomForPipe)
          · exact absurd available last
  · intro error s' logged refused
    rcases refused with denied | ⟨_, reserve⟩
    · cases denied
    · intro _
      have limits : task.security.quota.reservePipeFds 2 = .error error := by
        cases limit : task.security.quota.reservePipeFds 2 with
        | ok quota' =>
          rw [Quota.reserve, show pipeEndpointsPerPipe = 2 from rfl, limit] at reserve
          cases reserve
        | error other =>
          rw [Quota.reserve, show pipeEndpointsPerPipe = 2 from rfl, limit] at reserve
          exact congrArg Except.error (Except.error.inj reserve)
      refine ⟨unchanged logged.tasks logged.mm, ?_⟩
      rcases reservePipeFds_error accounted.fewFiles accounted.fewPipes limits with ⟨rfl, many⟩ | ⟨rfl, room, full⟩
      · refine ⟨⟨fun _ => many, fun _ => rfl⟩, ⟨(fun other => by cases other), fun both => absurd many (Nat.not_lt.mpr both.1)⟩, ?_⟩
        exact fun notMany _ => absurd rfl notMany
      · refine ⟨⟨(fun other => by cases other), fun many => absurd many (Nat.not_lt.mpr room)⟩, ⟨fun _ => ⟨room, Or.inl full⟩, fun _ => rfl⟩, ?_⟩
        exact fun _ notFull => absurd rfl notFull

/-- `sys_pipe` rolls back completely. -/
theorem failed_pipe_rolled_back (reachable : Reachable s) (current : s.kernel.current = some id)
    (found : s.kernel.tasks id = some task) (pipe : Nat) {r : Int} (returned : sysPipe pipe s = .ok (r, s'))
    (failed : r < 0) : RolledBack s s' id task pipe ∧ PipeError s task r := by
  have spec := wp_ok (sysPipe_rollback reachable.sound current found pipe) returned
  exact spec failed

end

/-- The array starts in the last word of the program's page, and the next page is not mapped. -/
theorem half_written_pipe_rolled_back : ∃ (s s' : System sample) (task : TaskControlBlock), Reachable s ∧
    sysPipe 0x10ff8 s = .ok (-14, s') ∧
    RolledBack s s' initproc task 0x10ff8 ∧ PipeError s task (-14) := by
  have ran : ((run sample [.schedule 0 []]).toOption.any fun s => s.kernel.current == some initproc &&
      (s.kernel.tasks initproc).any fun _ => (sysPipe 0x10ff8 s).toOption.any fun r => r.1 == -14) = true := by
    decide +kernel
  simp only [Option.any_eq_true, toOption_eq_some, Bool.and_eq_true, beq_iff_eq] at ran
  obtain ⟨s, result, current, task, found, ⟨r, s'⟩, returned, rfl⟩ := ran
  have reachable := run_reachable result
  exact ⟨s, s', task, reachable, returned,
    failed_pipe_rolled_back reachable current found 0x10ff8 returned (by decide)⟩

end SecureIpc
