import SecureIpc.Run.System

/-! Every system call performs acts and comes back to the caller, or suspends or ends it. -/

namespace SecureIpc
open Lib

section
variable {P : Platform} {k : Kernel P} {s s' : System P} {id : Nat} {task : TaskControlBlock}

/-! ### Signal state and credentials -/

theorem sysSigprocmask_does (sound : Sound k) (current : k.current = some id) (mask : Nat) :
    Does (sysSigprocmask mask) (fun _ k' => k'.current = some id) k := by
  obtain ⟨task, found, _⟩ := sound.running current
  simp only [Does, sysSigprocmask, wp_bind, wp_currentTask, current, wp_innerOf, found, SignalFlags.fromBits, wp_putInner,
    wp_pure]
  exact ⟨(setTask_signals found task.signals _ task.frozen).one, current⟩

theorem sysSigreturn_does (sound : Sound k) (current : k.current = some id) :
    Does sysSigreturn (fun _ k' => k'.current = some id) k := by
  obtain ⟨task, found, alive⟩ := sound.running current
  simp only [Does, sysSigreturn, wp_bind, wp_currentTask, current, wp_innerOf, found]
  cases saved : task.trapCtxBackup with
  | none => exact rfl
  | some backup =>
    have act : Act k (k.setTask id { task with handlingSig := -1, trapCtxBackup := some backup }) :=
      .signals found task.signals task.signalMask (-1) task.signalActions task.frozen (some backup)
        (fun formed => ⟨formed.actions, Or.inl rfl⟩) fun formed => saved ▸ formed
    have registers := (sound.task found).backup backup saved
    have found₁ := Kernel.setTask_same k id { task with handlingSig := -1, trapCtxBackup := some backup }
    apply wp_bind.mpr
    rw [wp_putInner]
    apply wp_bind.mpr
    refine initTrapCx_rule found₁ registers fun mem within => ?_
    exact ⟨act.one.tail ((act.sound sound).trapWrite found₁ alive ((act.sound sound).own current found₁) within), current⟩

theorem sysSigaction_does (sound : Sound k) (current : k.current = some id) (signum : Int) (action oldAction : Nat) :
    Does (sysSigaction signum action oldAction) (fun _ k' => k'.current = some id) k := by
  obtain ⟨task, found, alive⟩ := sound.running current
  simp only [Does, sysSigaction, wp_bind, wp_currentUserToken current found, wp_currentTask, current, wp_innerOf, found,
    SignalFlags.fromBits, wp_ite, wp_pure]
  split
  · exact ⟨.refl, trivial⟩
  split
  · exact ⟨.refl, trivial⟩
  refine wp_fault (fun prevAction _ => ?_) fun _ => rfl
  rw [wp_userMemory]
  refine wp_fault (fun copied _ => ?_) fun _ => rfl
  cases copied with
  | error error => exact ⟨.refl, current⟩
  | ok bytes =>
    apply wp_bind.mpr
    refine copyToUser_rule (sound.user found alive) (fun r mem within => ?_) fun _ => rfl
    have written : Act k (k.setMem mem) := .userWrite found alive (sound.own current found) within
    cases r with
    | error error => exact ⟨written.one, current⟩
    | ok =>
      have found₁ : (k.setMem mem).tasks id = some task := found
      have installed : Act (k.setMem mem) ((k.setMem mem).setTask id
          { task with signalActions := task.signalActions.set signum.toNat (.ofBytes bytes) }) :=
        .signals found₁ task.signals task.signalMask task.handlingSig _ task.frozen task.trapCtxBackup
          (fun formed => ⟨List.length_set.trans formed.actions, formed.handling⟩) fun saved => saved
      exact ⟨written.one.tail installed, current⟩

theorem sysSetuid_does (sound : Sound k) (current : k.current = some id) (uid : Nat) :
    Does (sysSetuid uid) (fun _ k' => k'.current = some id) k := by
  obtain ⟨task, found, _⟩ := sound.running current
  simp only [Does, sysSetuid, wp_bind, wp_currentTask, current, wp_innerOf, found]
  cases changed : task.security.credentials.setUid uid with
  | error error => exact ⟨.refl, current⟩
  | ok credentials => exact ⟨(Act.credentials current found changed).one, current⟩

theorem sysGetpid_does (sound : Sound k) (current : k.current = some id) :
    Does sysGetpid (fun _ k' => k'.current = some id) k := by
  obtain ⟨task, found, _⟩ := sound.running current
  simp only [Does, sysGetpid, wp_bind, wp_currentTask, current, wp_innerOf, found, wp_pure]
  exact ⟨.refl, trivial⟩

theorem sysGetuid_does (sound : Sound k) (current : k.current = some id) :
    Does sysGetuid (fun _ k' => k'.current = some id) k := by
  obtain ⟨task, found, _⟩ := sound.running current
  simp only [Does, sysGetuid, wp_bind, wp_currentTask, current, wp_innerOf, found, wp_pure]
  exact ⟨.refl, trivial⟩

/-! ### `sys_kill` -/

def killRequest (caller target : TaskControlBlock) (pid : Nat) : IpcRequest :=
  { subject := caller.subject, object := ⟨pid, target.security.credentials.uid⟩, operation := .signalSend, amount := 1 }

def validSignal (signum : Int) : Prop := 0 ≤ signum ∧ wordOfInt signum ≤ maxSig

theorem setTask_same_task (found : k.tasks id = some task) : k.setTask id task = k := by
  unfold Kernel.setTask
  rw [Kernel.set_self found]

theorem finish_none (quota : QuotaState) (amount : Nat) (success : Bool) :
    Quota.finish quota ⟨.none, amount⟩ success = .ok quota := by
  cases success <;> rfl

theorem sysKill_rule {Q : Int → System P → Prop} {E : Halt → Prop} (sound : Sound s.kernel)
    (current : s.kernel.current = some id) (found : s.kernel.tasks id = some task) (pid : Nat) (signum : Int)
    (invalid : ¬validSignal signum → Q (ipcErrorToRet .invalidArgument) s)
    (missing : validSignal signum → s.kernel.pid2tcb pid = none → Q (ipcErrorToRet .processNotFound) s)
    (denied : ∀ target targetTask error s', validSignal signum → s.kernel.pid2tcb pid = some target →
      s.kernel.tasks target = some targetTask → authorize (killRequest task targetTask pid) = .error error →
      Logged s (some (.fromRequest (killRequest task targetTask pid) (.error error) s.kernel.now)) s' →
      Q (ipcErrorToRet error) s')
    (sent : ∀ target targetTask s', validSignal signum → s.kernel.pid2tcb pid = some target →
      s.kernel.tasks target = some targetTask → authorize (killRequest task targetTask pid) = .ok () →
      Logged { s with kernel := s.kernel.setTask target (targetTask.sendSignal (1 <<< signum.toNat)).1 }
        (some (.fromRequest (killRequest task targetTask pid) (targetTask.sendSignal (1 <<< signum.toNat)).2 s.kernel.now))
        s' →
      Q (match (targetTask.sendSignal (1 <<< signum.toNat)).2 with
        | .ok _ => 0
        | .error error => ipcErrorToRet error) s')
    (stops : ∀ event f, s.auditRing.push event = .error f → E (.fault f)) : wp (sysKill pid signum) Q E s := by
  unfold sysKill
  split_ifs with bad
  · refine invalid fun valid => ?_
    rcases bad with negative | large
    · exact absurd valid.1 (Int.not_le.mpr negative)
    · exact absurd valid.2 (Nat.not_le.mpr large)
  have valid : validSignal signum := ⟨Int.not_lt.mp fun negative => bad (Or.inl negative),
    Nat.not_lt.mp fun large => bad (Or.inr large)⟩
  simp only [SignalFlags.fromBits, wp_bind, wp_kernel, pid2task, wp_read]
  cases registered : s.kernel.pid2tcb pid with
  | none => exact missing valid registered
  | some target =>
    obtain ⟨_, place, _⟩ := sound.table.registered.mp registered
    obtain ⟨targetTask, targetFound, _⟩ := Option.map_eq_some_iff.mp place
    simp only [wp_bind, wp_kernel, wp_currentTask, current, wp_innerOf, targetFound, found]
    refine preflight_rule ?_ ?_ stops
    · intro quota reservation allowed reserved
      obtain ⟨rfl, rfl⟩ := Prod.mk.inj (Except.ok.inj reserved)
      simp only [wp_bind, wp_kernel, wp_putInner]
      rw [setTask_same_task found]
      simp only [wp_innerOf, targetFound]
      -- the caller may be its own target
      have caller : ∃ after, (s.kernel.setTask target (targetTask.sendSignal (1 <<< signum.toNat)).1).tasks id =
          some after := by
        by_cases same : id = target
        · subst same
          exact ⟨_, Kernel.set_same _ _ _⟩
        · exact ⟨task, (Kernel.set_other same).trans found⟩
      obtain ⟨after, looked⟩ := caller
      simp only [looked]
      refine complete_rule (by exact finish_none _ 0 _) (fun s' logged => ?_) stops
      have back : s'.kernel.setTask id after = s'.kernel := by
        apply setTask_same_task
        rw [logged.tasks]
        exact looked
      dsimp only
      rw [back]
      have last := sent target targetTask s' valid registered targetFound allowed logged
      revert last
      generalize (targetTask.sendSignal (1 <<< signum.toNat)).2 = outcome
      intro last
      cases outcome with
      | ok value => exact last
      | error error => exact last
    · intro error s' logged reason
      have refused : authorize (killRequest task targetTask pid) = .error error := by
        rcases reason with policy | ⟨_, limits⟩
        · exact policy
        · cases limits
      exact denied target targetTask error s' valid registered targetFound refused logged

theorem sysKill_performs (sound : Sound s.kernel) (current : s.kernel.current = some id) (pid : Nat) (signum : Int) :
    Performs (sysKill pid signum) (fun _ s' => s'.kernel.current = some id) s := by
  obtain ⟨task, found, _⟩ := sound.running current
  refine sysKill_rule sound current found pid signum (fun _ => ⟨.refl, current⟩) (fun _ _ => ⟨.refl, current⟩) ?_ ?_
    fun _ _ _ => rfl
  · intro target targetTask error s' _ _ _ _ logged
    exact ⟨logged.acts, logged.current.trans current⟩
  · intro target targetTask s' _ _ targetFound _ logged
    have act : Act s.kernel (s.kernel.setTask target (targetTask.sendSignal (1 <<< signum.toNat)).1) := by
      unfold TaskControlBlock.sendSignal
      split
      · exact setTask_signals targetFound targetTask.signals targetTask.signalMask targetTask.frozen
      · exact setTask_signals targetFound _ targetTask.signalMask targetTask.frozen
    exact ⟨(Acts.system act.one).trans logged.acts, logged.current.trans current⟩

/-! ### Reading and writing -/

theorem completeTransfer_rule {Q : Int → System P → Prop} {E : Halt → Prop} (current : s.kernel.current = some id)
    (found : s.kernel.tasks id = some task) (permit : IpcPermit) (count : Nat)
    (next : ∀ s', Logged s (auditOf permit.request (.ok count) s.kernel.now) s' → Q (intOfWord count) s')
    (stops : ∀ event f, s.auditRing.push event = .error f → E (.fault f)) : wp (completeTransfer permit count) Q E s := by
  simp only [completeTransfer, wp_bind, wp_kernel, wp_currentTask, current, wp_innerOf, found]
  refine complete_rule (by exact rfl) (fun s' logged => ?_) stops
  have back : s'.kernel.setTask id task = s'.kernel := by
    apply setTask_same_task
    rw [logged.tasks]
    exact found
  rw [wp_putInner, wp_pure]
  dsimp only
  rw [back]
  exact next s' logged

theorem completeTransfer_performs (sound : Sound s.kernel) (current : s.kernel.current = some id) {permit : IpcPermit}
    {count : Nat} (settled : Settled s.kernel id permit.request count) :
    Performs (completeTransfer permit count) (fun value s' => Answers id s' value) s := by
  obtain ⟨task, found, _⟩ := sound.running current
  obtain ⟨small, entry, since, opened, requested, silent, transferred⟩ := settled
  refine completeTransfer_rule current found permit count (fun s' logged => ?_) fun _ _ _ => rfl
  rw [requested.auditOf] at logged
  have value : intOfWord count = count := intOfWord_small (by omega)
  rw [value]
  exact ⟨logged.acts, answers_told (logged.current.trans current) (logged.opened current opened) silent requested
    (fun _ => transferred) (requested.tells_ok _ (Int.natCast_nonneg count) fun _ => rfl)⟩

theorem transferPipe_performs (sound : Sound s.kernel) (current : s.kernel.current = some id) {request : IpcRequest}
    {entry : Entry} (moves : request.operation ≠ .pipeCreate) (requested : Requested entry request)
    (opened : openCall id s.kernel.trace = some (entry, [])) {len : Nat} (amount : request.amount = len) {transfer : IpcPermit → KernelM P (Option Nat)}
    (transfers : ∀ reservation, len ≠ 0 → Does (transfer ⟨request, reservation⟩)
      (fun r k' => ∀ count, r = some count → k'.current = some id ∧ Settled k' id request count) s.kernel) :
    Performs (transferPipe id request len transfer) (fun r s' => ∀ value, r = some value → Answers id s' value) s := by
  obtain ⟨task, found, _⟩ := sound.running current
  have answered : ∀ {p : SystemM P Int} {s : System P}, Performs p (fun value s' => Answers id s' value) s →
      Performs (do return some (← p)) (fun r s' => ∀ value, r = some value → Answers id s' value) s := by
    intro p s performs
    apply performs.bind
    intro ret s₁ _ last
    exact Performs.pure fun value same => Option.some.inj same ▸ last
  simp only [Performs, transferPipe, wp_bind, wp_kernel, wp_innerOf, found]
  refine preflight_rule ?_ ?_ fun _ _ _ => rfl
  · intro quota reservation _ reserved
    have same : quota = task.security.quota := by
      unfold Quota.reserve at reserved
      split at reserved
      · contradiction
      · exact (Prod.mk.inj (Except.ok.inj reserved)).1.symm
    subst same
    simp only [wp_bind, wp_kernel, wp_putInner]
    rw [setTask_same_task found]
    split
    · rename_i empty
      have nothing : Settled s.kernel id request 0 :=
        ⟨Nat.zero_le _, entry, [], opened, requested, rfl, Or.inl ⟨rfl, Or.inr ⟨amount.trans empty, rfl⟩⟩⟩
      exact answered (@completeTransfer_performs P s id sound current ⟨request, reservation⟩ 0 nothing)
    · rename_i some
      apply (Does.system (transfers reservation some)).bind
      intro count s₁ acts back
      cases count with
      | none => exact Performs.pure (by simp)
      | some count =>
        obtain ⟨current₁, settled⟩ := back count rfl
        exact answered (@completeTransfer_performs P s₁ id (acts.sound sound) current₁ ⟨request, reservation⟩ count settled)
  · intro error s' logged _
    rw [requested.auditOf] at logged
    refine ⟨logged.acts, fun value same => ?_⟩
    obtain rfl := Option.some.inj same
    exact answers_failed current opened requested logged

theorem rejectBuffer_performs (current : s.kernel.current = some id) {request : Option IpcRequest} {entry : Entry}
    (opened : openCall id s.kernel.trace = some (entry, [])) (plain : request = none → entry.audited = none)
    (requested : ∀ asked, request = some asked → Requested entry asked) (error : IpcError) :
    Performs (rejectBuffer request error) (fun r s' => ∀ value, r = some value → Answers id s' value) s := by
  cases request with
  | none => exact Performs.pure fun value _ => answers_silent current opened (plain rfl) (.refl id _) value
  | some request =>
    apply wp_bind.mpr
    refine record_rule (fun s' logged => ?_) fun _ _ _ => rfl
    have requested := requested request rfl
    rw [requested.auditOf] at logged
    refine ⟨logged.acts, fun value same => ?_⟩
    obtain rfl := Option.some.inj same
    exact answers_failed current opened requested logged

theorem copyBytesFromUser_ok {mem : PhysMem} {token src len : Nat} {buffer : UserBuffer}
    (run : copyBytesFromUser mem token src len = .ok (.ok buffer)) :
    tryTranslatedByteBuffer mem token src len false = .ok (some buffer.buffers) := by
  unfold copyBytesFromUser at run
  cases translated : tryTranslatedByteBuffer mem token src len false with
  | error fault =>
    rw [translated] at run
    cases run
  | ok buffers =>
    rw [translated] at run
    cases buffers with
    | none => cases run
    | some buffers =>
      cases run
      rfl

theorem startTransfer {write : Bool} {endpoint : Pipe} {buffers : List Slice} {permit : IpcPermit} {entry : Entry}
    {loop : KernelM P (Option Nat)} {ptr len : Nat} {access : Bool} (sound : Sound s.kernel)
    (current : s.kernel.current = some id) (found : s.kernel.tasks id = some task) (alive : task.isZombie = false)
    (opened : openCall id s.kernel.trace = some (entry, [])) (requested : Requested entry permit.request)
    (object : permit.request.object = endpoint.object) (operation : permit.request.operation = if write then .pipeWrite else .pipeRead)
    (amount : permit.request.amount = len) (positive : len ≠ 0)
    (translated : tryTranslatedByteBuffer s.kernel.mm.mem task.getUserToken ptr len access = .ok (some buffers))
    (loops : ∀ k : Kernel P, Sound k → k.current = some id → k.tasks id = some task →
      k.pipes = s.kernel.pipes → Carries k id write (.start endpoint ⟨buffers⟩ permit) →
      PipeCall.done (.start endpoint ⟨buffers⟩ permit) < PipeCall.want (.start endpoint ⟨buffers⟩ permit) →
      Does loop (fun r k' => ∀ count, r = some count → k'.current = some id ∧ Settled k' id permit.request count) k) :
    Does (beginTransfer write (.start endpoint ⟨buffers⟩ permit) >>= fun _ => loop)
      (fun r k' => ∀ count, r = some count → k'.current = some id ∧ Settled k' id permit.request count) s.kernel := by
  have user := sound.user found alive
  obtain ⟨limit, total, distinct⟩ := user.buffer positive translated
  have want : (UserBuffer.mk buffers).len = len := (UserBuffer.len_eq_addrs ⟨buffers⟩).trans total
  have begun := @beginTransfer_does P s.kernel id task write (.start endpoint ⟨buffers⟩ permit) entry current opened requested
    ⟨object, amount.trans want.symm, operation⟩ rfl rfl
    (user.covers translated) distinct (total.trans want.symm) (show (UserBuffer.mk buffers).len ≤ 2 ^ 38 by omega)
  apply begun.bind
  intro _ k₁ acts both
  obtain ⟨carries, current₁, tasks, pipes⟩ := both
  refine loops k₁ (acts.sound sound) current₁ ((congrFun tasks id).trans found) pipes carries ?_
  show 0 < (UserBuffer.mk buffers).len
  omega

theorem transferRequest_requested {syscallId fd buf len : Nat} {operation : IpcOperation} {file : File} (opened : task.file fd = some file)
    (audited : ∀ endpoint, file = .pipe endpoint → (entryOf task syscallId (fd, buf, len)).audited = some (operation, len)) :
    ∀ asked, task.transferRequest file operation len = some asked → Requested (entryOf task syscallId (fd, buf, len)) asked := by
  intro asked same
  cases file with
  | pipe endpoint =>
    obtain rfl := Option.some.inj same
    exact ⟨audited endpoint rfl, rfl, rfl, fun _ => ⟨endpoint, opened, rfl⟩⟩
  | _ => cases same

theorem sysWrite_performs (sound : Sound s.kernel) (current : s.kernel.current = some id)
    (found : s.kernel.tasks id = some task) (fd buf len : Nat)
    (opened : openCall id s.kernel.trace = some (entryOf task 64 (fd, buf, len), [])) :
    Performs (sysWrite fd buf len) (fun r s' => ∀ value, r = some value → Answers id s' value) s := by
  have alive := sound.table.current_live current (table_place found)
  have silent : (entryOf task 64 (fd, buf, len)).audited = none → ∀ {s' : System P}, s'.kernel.current = some id →
      Continues id s.kernel.trace s'.kernel.trace [] → ∀ value, Answers id s' value :=
    fun unasked _ current₁ continues value => answers_silent current₁ opened unasked continues value
  have asks : (entryOf task 64 (fd, buf, len)).audited =
      { entryOf task 64 (fd, buf, len) with target := task.file fd }.audited := rfl
  simp only [Performs, sysWrite, wp_bind, wp_kernel, wp_currentUserToken current found, wp_currentTask, current, wp_innerOf,
    found]
  cases opened' : task.file fd with
  | none =>
    rw [opened'] at asks
    exact ⟨.refl, fun value _ => silent asks current (.refl id _) value⟩
  | some file =>
    rw [opened'] at asks
    have known : s.kernel.Known file := (sound.task found).files opened'
    simp only [wp_ite, wp_pure, wp_bind, wp_kernel, wp_userMemory]
    split
    · rename_i direction
      refine ⟨.refl, fun value _ => silent ?_ current (.refl id _) value⟩
      cases file with
      | pipe endpoint =>
        have closed : endpoint.writable = false := by simpa [File.writable] using direction
        exact asks.trans (if_neg (by simp [closed]))
      | _ => exact asks
    rename_i direction
    refine wp_fault (fun copied validated => ?_) fun _ => rfl
    have requested : ∀ asked, task.transferRequest file .pipeWrite len = some asked →
        Requested (entryOf task 64 (fd, buf, len)) asked := by
      refine transferRequest_requested opened' ?_
      rintro endpoint rfl
      have writable : endpoint.writable = true := by simpa [File.writable] using direction
      exact asks.trans (if_pos writable)
    cases copied with
    | error error =>
      refine rejectBuffer_performs current opened (fun unasked => ?_) requested error
      cases file with
      | pipe endpoint => cases unasked
      | _ => exact asks
    | ok userBuffer =>
      have translated := copyBytesFromUser_ok validated
      have plain : ∀ {file : File}, s.kernel.Known file → (entryOf task 64 (fd, buf, len)).audited = none →
          Performs (do return (← kernel (file.writePlain userBuffer)).map intOfWord)
            (fun r s' => ∀ value, r = some value → Answers id s' value) s := by
        intro file known unasked
        apply wp_bind.mpr
        rw [wp_kernel]
        refine wp_mono (writePlain_does current known userBuffer) (fun count k₁ both => ?_) fun _ expected => expected
        exact ⟨Acts.system both.1, fun value _ => silent unasked both.2 (both.1.continues id) value⟩
      cases file with
      | pipe endpoint =>
        refine transferPipe_performs sound current (by simp) (requested _ rfl) opened rfl fun reservation positive => ?_
        unfold pipeWrite
        split
        · refine startTransfer sound current found alive opened (requested _ rfl) rfl rfl rfl positive translated ?_
          intro k₁ sound₁ current₁ found₁ pipes carries less
          refine pipeWriteLoop_does sound₁ current₁ found₁ _ ?_ ((sound.user found alive).covers translated) carries less
          rw [pipes]
          exact known
        · exact rfl
      | stdin | stdout | inode =>
        dsimp only
        split
        · exact ⟨.refl, fun value _ => silent asks current (.refl id _) value⟩
        · exact plain known asks

theorem sysRead_performs (sound : Sound s.kernel) (current : s.kernel.current = some id)
    (found : s.kernel.tasks id = some task) (fd buf len : Nat)
    (opened : openCall id s.kernel.trace = some (entryOf task 63 (fd, buf, len), [])) :
    Performs (sysRead fd buf len) (fun r s' => ∀ value, r = some value → Answers id s' value) s := by
  have alive := sound.table.current_live current (table_place found)
  have silent : (entryOf task 63 (fd, buf, len)).audited = none → ∀ {s' : System P}, s'.kernel.current = some id →
      Continues id s.kernel.trace s'.kernel.trace [] → ∀ value, Answers id s' value :=
    fun unasked _ current₁ continues value => answers_silent current₁ opened unasked continues value
  have asks : (entryOf task 63 (fd, buf, len)).audited =
      { entryOf task 63 (fd, buf, len) with target := task.file fd }.audited := rfl
  simp only [Performs, sysRead, wp_bind, wp_kernel, wp_currentUserToken current found, wp_currentTask, current, wp_innerOf,
    found]
  cases opened' : task.file fd with
  | none =>
    rw [opened'] at asks
    exact ⟨.refl, fun value _ => silent asks current (.refl id _) value⟩
  | some file =>
    rw [opened'] at asks
    have known : s.kernel.Known file := (sound.task found).files opened'
    simp only [wp_ite, wp_pure, wp_bind, wp_kernel, wp_userMemory]
    split
    · rename_i direction
      refine ⟨.refl, fun value _ => silent ?_ current (.refl id _) value⟩
      cases file with
      | pipe endpoint =>
        have closed : endpoint.readable = false := by simpa [File.readable] using direction
        exact asks.trans (if_neg (by simp [closed]))
      | _ => exact asks
    rename_i direction
    refine wp_fault (fun translated validated => ?_) fun _ => rfl
    have requested : ∀ asked, task.transferRequest file .pipeRead len = some asked →
        Requested (entryOf task 63 (fd, buf, len)) asked := by
      refine transferRequest_requested opened' ?_
      rintro endpoint rfl
      have readable : endpoint.readable = true := by simpa [File.readable] using direction
      exact asks.trans (if_pos readable)
    cases translated with
    | none =>
      refine rejectBuffer_performs current opened (fun unasked => ?_) requested .invalidAddress
      cases file with
      | pipe endpoint => cases unasked
      | _ => exact asks
    | some buffers =>
      have covers : task.memorySet.Covers buffers := (sound.user found alive).covers validated
      have plain : ∀ {file : File}, s.kernel.Known file → (entryOf task 63 (fd, buf, len)).audited = none →
          Performs (do return (← kernel (file.readPlain ⟨buffers⟩)).map intOfWord)
            (fun r s' => ∀ value, r = some value → Answers id s' value) s := by
        intro file known unasked
        apply wp_bind.mpr
        rw [wp_kernel]
        have does := readPlain_does current found alive (sound.own current found) known ⟨buffers⟩ covers
          fun _ => ⟨entryOf task 63 (fd, buf, len), opened, unasked⟩
        refine wp_mono does (fun count k₁ both => ?_) fun _ expected => expected
        refine ⟨Acts.system both.1, fun value same => silent unasked ?_ (both.1.continues id) value⟩
        refine both.2 fun suspended => ?_
        rw [suspended] at same
        cases same
      cases file with
      | pipe endpoint =>
        refine transferPipe_performs sound current (by simp) (requested _ rfl) opened rfl fun reservation positive => ?_
        unfold pipeRead
        split
        · refine startTransfer sound current found alive opened (requested _ rfl) rfl rfl rfl positive validated ?_
          intro k₁ sound₁ current₁ found₁ pipes carries less
          refine pipeReadLoop_does sound₁ current₁ found₁ _ ?_ covers carries less
          rw [pipes]
          exact known
        · exact rfl
      | stdin | stdout | inode =>
        dsimp only
        split
        · exact ⟨.refl, fun value _ => silent asks current (.refl id _) value⟩
        · exact plain known asks

/-! ### `sys_pipe` -/

theorem copyDescriptors_userOnly (layout : Layout) (space : MemorySet) (pipe readFd writeFd : Nat) :
    UserOnly layout space (copyDescriptors space.token pipe readFd writeFd) := by
  apply (UserOnly.copyToUser layout space pipe _).bind
  intro copied
  cases copied with
  | error error => exact .pure _
  | ok => exact .copyToUser layout space _ _

theorem makePipe_rule {Q : IpcResult (File × File) → Kernel P → Prop} {E : Halt → Prop} (uid : Uid)
    (exhausted : ¬k.nextPipeId + 1 < 2 ^ 64 → Q (.error .resourceExhausted) k)
    (made : k.nextPipeId + 1 < 2 ^ 64 →
      Q (.ok (.pipe (.readEndWithBuffer ⟨k.nextPipeId, uid⟩), .pipe (.writeEndWithBuffer ⟨k.nextPipeId, uid⟩)))
        ({ k with nextPipeId := k.nextPipeId + 1 }.setPipe k.nextPipeId
          (PipeRingBuffer.new.setWriteEnd k.nextPipeId))) :
    wp (makePipe uid) Q E k := by
  simp only [makePipe, allocatePipeId, wp_bind, wp_read, checkedAdd]
  split
  · rename_i none
    split at none
    · cases none
    · rename_i full
      exact exhausted full
  · rename_i next some
    split at some
    · rename_i room
      obtain rfl := Option.some.inj some
      exact made room
    · cases some

theorem registerPipeFd_security {state : ProcessSecurityState} {quota : QuotaState} {fd : Nat}
    (run : state.quota.registerPipeFd fd = .ok quota) : state.registerPipeFd fd = .ok { state with quota } := by
  unfold ProcessSecurityState.registerPipeFd
  rw [run]
  rfl

/-- Logging does not see a control block that is overwritten afterwards. -/
theorem Logged.overwritten {event : Option AuditEvent} {draft : TaskControlBlock}
    (logged : Logged { s with kernel := s.kernel.setTask id draft } event s') (task : TaskControlBlock) :
    ∃ s₁, Logged s event s₁ ∧
      ({ s' with kernel := s'.kernel.setTask id task } : System P) = { s₁ with kernel := s₁.kernel.setTask id task } := by
  have twice : (s.kernel.setTask id draft).setTask id task = s.kernel.setTask id task := by
    unfold Kernel.setTask
    rw [Kernel.set_set]
  cases event with
  | none =>
    obtain rfl := logged
    exact ⟨s, rfl, by rw [twice]⟩
  | some event =>
    obtain ⟨auditRing, pushed, rfl⟩ := logged
    refine ⟨_, ⟨auditRing, pushed, rfl⟩, ?_⟩
    have observed : ((s.kernel.setTask id draft).observe (.recorded event)).setTask id task =
        (s.kernel.observe (.recorded event)).setTask id task := by
      unfold Kernel.setTask Kernel.observe
      rw [Kernel.set_set]
    rw [observed]

/-- The new descriptors are committed, or taken away again; in both cases the accounts are right. -/
theorem finishPipe_performs {reader writer : Pipe} {quota' : QuotaState} {copied : IpcResult Unit} {request : IpcRequest}
    {entry : Entry} {since : List Observation} (current : s.kernel.current = some id) (found : s.kernel.tasks id = some task)
    (opened : openCall id s.kernel.trace = some (entry, since)) (silent : recordedIn since = [])
    (requested : Requested entry request) (creates : request.operation = .pipeCreate)
    (accounted : Accounted task.fdTable task.security.quota)
    (reserved : task.security.quota.reservePipeFds 2 = .ok quota')
    (readerKnown : s.kernel.Known (.pipe reader)) (writerKnown : s.kernel.Known (.pipe writer)) :
    wp (finishPipe id ⟨request, ⟨.pipeFds, 2⟩⟩ (freeSlot task.fdTable) (freeSlot (fill task.fdTable (.pipe reader))) copied)
      (fun value s' => SystemActs s s' ∧ Answers id s' value) (fun halt => halt.expected)
      { s with kernel := s.kernel.setTask id { task with
          fdTable := fill (fill task.fdTable (.pipe reader)) (.pipe writer)
          security := { task.security with quota := quota' } } } := by
  have committed : ∀ {event : AuditEvent} {s' : System P} {draft : TaskControlBlock} {fdTable : List (Option File)}
      {quota : QuotaState} {value : Int}, Logged { s with kernel := s.kernel.setTask id draft } (some event) s' →
      Accounted fdTable quota → (s.kernel.KnownFiles task.fdTable → s.kernel.KnownFiles fdTable) →
      Tells event entry request.operation request.amount value →
      SystemActs s { s' with
        kernel := s'.kernel.setTask id { task with fdTable, security := { task.security with quota } } } ∧
      Answers id { s' with
        kernel := s'.kernel.setTask id { task with fdTable, security := { task.security with quota } } } value := by
    intro event s' draft fdTable quota value logged after known tells
    obtain ⟨s₁, before, same⟩ := logged.overwritten { task with fdTable, security := { task.security with quota } }
    have current₁ : s₁.kernel.current = some id := before.current.trans current
    have found₁ : s₁.kernel.tasks id = some task := (congrFun before.tasks id).trans found
    have known₁ : s₁.kernel.KnownFiles task.fdTable → s₁.kernel.KnownFiles fdTable := fun old =>
      (before.knownFiles fdTable).mpr (known ((before.knownFiles task.fdTable).mp old))
    rw [same]
    refine ⟨before.acts.tail (.kernel (.descriptors current₁ found₁ fdTable quota (fun _ => after) known₁)), ?_⟩
    exact @answers_told _ { s₁ with kernel := s₁.kernel.setTask id _ } _ _ _ _ _ _ current₁ (before.opened current opened) silent
      requested (absurd creates) tells
  have known : s.kernel.KnownFiles task.fdTable →
      s.kernel.KnownFiles (fill (fill task.fdTable (.pipe reader)) (.pipe writer)) := by
    intro old
    refine OpenFrom.fill.known (fun file new => ?_) (OpenFrom.fill.known (fun file new => ?_) old)
    · obtain rfl := Option.some.inj new
      exact writerKnown
    · obtain rfl := Option.some.inj new
      exact readerKnown
  unfold finishPipe
  simp only [wp_bind, wp_kernel, wp_innerOf, Kernel.setTask_same]
  cases copied with
  | ok =>
    obtain ⟨middle, last, first, second, after⟩ :=
      pipe_registered (.pipe reader) (.pipe writer) accounted reserved rfl rfl
    simp only [wp_bind]
    rw [registerPipeFd_security first, wp_lift_ok, registerPipeFd_security second, wp_lift_ok]
    refine complete_rule (by exact rfl) (fun s' logged => ?_) fun _ _ _ => rfl
    rw [requested.auditOf] at logged
    have zero : 0 ≤ intOfWord 0 := by decide
    exact committed logged after known (requested.tells_ok _ zero fun other => absurd creates other)
  | error error =>
    obtain ⟨back, after⟩ := pipe_released (.pipe reader) (.pipe writer) accounted reserved
    apply wp_bind.mpr
    refine complete_rule back (fun s' logged => ?_) fun _ _ _ => rfl
    rw [requested.auditOf] at logged
    refine committed logged after (fun old => ?_) (requested.tells_error error _)
    exact OpenFrom.clear.known (by simp) (OpenFrom.clear.known (by simp) (known old))

theorem sysPipe_performs (sound : Sound s.kernel) (current : s.kernel.current = some id)
    (found : s.kernel.tasks id = some task) (pipe : Nat) {rest : Nat × Nat}
    (opened : openCall id s.kernel.trace = some (entryOf task 59 (pipe, rest), [])) :
    Performs (sysPipe pipe) (fun value s' => Answers id s' value) s := by
  have alive := sound.table.current_live current (table_place found)
  have requested : Requested (entryOf task 59 (pipe, rest))
      { subject := task.subject, object := ⟨0, task.security.credentials.uid⟩, operation := .pipeCreate, amount := 1 } :=
    ⟨rfl, rfl, rfl, fun moves => absurd rfl moves⟩
  have accounted := (sound.task found).accounted alive
  simp only [Performs, sysPipe, wp_bind, wp_kernel, wp_currentUserToken current found, wp_currentTask, current, wp_innerOf,
    found]
  refine preflight_rule ?_ ?_ fun _ _ _ => rfl
  · intro quota reservation _ reserve
    obtain ⟨quota', reserved, last⟩ := bind_ok reserve
    obtain ⟨rfl, rfl⟩ := Prod.mk.inj (Except.ok.inj last)
    apply wp_bind.mpr
    rw [wp_kernel]
    apply makePipe_rule
    · intro _
      apply wp_bind.mpr
      have back := (pipe_released .stdin .stdin accounted reserved).1
      refine complete_rule back (fun s' logged => ?_) fun _ _ _ => rfl
      have same : s'.kernel.setTask id task = s'.kernel := by
        apply setTask_same_task
        rw [logged.tasks]
        exact found
      simp only [wp_bind, wp_kernel, wp_putInner, wp_pure]
      rw [same]
      rw [requested.auditOf] at logged
      exact ⟨logged.acts, answers_failed current opened requested logged⟩
    · intro room
      simp only [wp_bind, wp_kernel, TaskControlBlock.installFd_eq, fault, Except.mapError, wp_lift_ok, wp_putInner]
      refine (copyDescriptors_userOnly P.layout task.memorySet _ _ _).rule (sound.user found alive) (fun copied mem within => ?_)
        fun _ => rfl
      have made : Act s.kernel _ := .makePipe room
      let s₁ : System P := { s with kernel := ({ s.kernel with nextPipeId := s.kernel.nextPipeId + 1 }.setPipe
        s.kernel.nextPipeId (PipeRingBuffer.new.setWriteEnd s.kernel.nextPipeId)).setMem mem }
      have acts : Acts s.kernel s₁.kernel := (made.one.tail (.userWrite (by exact found) alive (sound.own current found) within))
      have current₁ : s₁.kernel.current = some id := current
      have found₁ : s₁.kernel.tasks id = some task := found
      have known : s₁.kernel.pipes s.kernel.nextPipeId ≠ none := Kernel.set_some_same _ _ _
      refine wp_mono (finishPipe_performs current₁ found₁ opened rfl requested rfl accounted reserved known known) ?_
        fun _ expected => expected
      rintro _ s₂ ⟨later, last⟩
      exact ⟨(Acts.system acts).trans later, last⟩
  · intro error s' logged _
    rw [requested.auditOf] at logged
    exact ⟨logged.acts, answers_failed current opened requested logged⟩

/-! ### The audit system calls -/

theorem copyRecords_userOnly (layout : Layout) (space : MemorySet) (batch : AuditBatch) (start count index : Nat) :
    UserOnly layout space (copyRecords batch space.token start count index) := by
  induction count generalizing index with
  | zero => exact .pure _
  | succ count ih =>
    unfold copyRecords
    cases batch.recordAt index with
    | none => exact .pure _
    | some record =>
      apply (UserOnly.lift _).bind
      intro offset
      generalize record.bytes = bytes
      apply (UserOnly.copyToUser layout space _ _).bind
      intro copied
      cases copied with
      | error error => exact .pure _
      | ok => exact ih (index + 1)

/-- Programs that read the ring do not change it, and change the kernel by acts; only a failure is
recorded. -/
theorem finishControlCall_performs (current : s.kernel.current = some id) (operation : AuditControlOperation)
    (subject : IpcSubject) (requestedAmount : Nat) (outcome : IpcResult Nat) :
    Performs (finishControlCall operation subject requestedAmount outcome) (fun value s' =>
      s'.kernel.current = some id ∧ (0 ≤ value → s'.kernel.trace = s.kernel.trace)) s := by
  cases outcome with
  | ok value => exact Performs.pure ⟨current, fun _ => rfl⟩
  | error error =>
    apply wp_bind.mpr
    apply wp_bind.mpr
    rw [wp_kernel]
    refine push_rule (fun s' logged => ?_) fun _ _ _ => rfl
    obtain ⟨same, negative⟩ := ipcErrorToRet_eq error
    refine ⟨logged.acts, logged.current.trans current, fun positive => ?_⟩
    omega

theorem readRecords_performs (sound : Sound s.kernel) (current : s.kernel.current = some id)
    (found : s.kernel.tasks id = some task) (alive : task.isZombie = false) (subject : IpcSubject)
    (records capacity afterSequence : Nat) :
    Performs (readRecords subject task.getUserToken records capacity afterSequence)
      (fun _ s' => s'.kernel.current = some id ∧ s'.kernel.trace = s.kernel.trace) s := by
  unfold readRecords
  cases checkPermission subject with
  | error error => exact Performs.pure ⟨current, rfl⟩
  | ok =>
    dsimp only
    split
    · exact Performs.pure ⟨current, rfl⟩
    simp only [Performs, Audit.snapshot, wp_bind, wp_read]
    cases s.auditRing.snapshot afterSequence capacity with
    | error f => exact rfl
    | ok batch =>
      simp only [Except.mapError, wp_lift_ok]
      split
      · exact ⟨.refl, current, rfl⟩
      cases checkOutputRange records batch.len auditRecordV1Size with
      | error error => exact ⟨.refl, current, rfl⟩
      | ok =>
        apply wp_bind.mpr
        rw [wp_kernel]
        refine (copyRecords_userOnly P.layout task.memorySet _ _ _ _).rule (sound.user found alive) (fun copied mem within => ?_)
          fun _ => rfl
        have written : SystemActs s { s with kernel := s.kernel.setMem mem } :=
          .single (.kernel (.userWrite found alive (sound.own current found) within))
        cases copied with
        | error error => exact ⟨written, current, rfl⟩
        | ok => exact ⟨written, current, rfl⟩

theorem readStats_performs (sound : Sound s.kernel) (current : s.kernel.current = some id)
    (found : s.kernel.tasks id = some task) (alive : task.isZombie = false) (subject : IpcSubject)
    (stats outSize flags : Nat) :
    Performs (readStats subject task.getUserToken stats outSize flags)
      (fun _ s' => s'.kernel.current = some id ∧ s'.kernel.trace = s.kernel.trace) s := by
  unfold readStats
  cases checkPermission subject with
  | error error => exact Performs.pure ⟨current, rfl⟩
  | ok =>
    dsimp only
    split
    · exact Performs.pure ⟨current, rfl⟩
    cases checkOutputRange stats 1 ipcStatsV1Size with
    | error error => exact Performs.pure ⟨current, rfl⟩
    | ok =>
      simp only [Performs, Audit.stats, wp_bind, wp_read]
      cases s.auditRing.stats with
      | error f => exact rfl
      | ok snapshot =>
        simp only [Except.mapError, wp_lift_ok, wp_kernel]
        generalize snapshot.toRecord.bytes = bytes
        refine copyToUser_rule (sound.user found alive) (fun copied mem within => ?_) fun _ => rfl
        have written : SystemActs s { s with kernel := s.kernel.setMem mem } :=
          .single (.kernel (.userWrite found alive (sound.own current found) within))
        cases copied with
        | error error => exact ⟨written, current, rfl⟩
        | ok => exact ⟨written, current, rfl⟩

theorem wp_callerContext {Q : IpcSubject × Nat → Kernel P → Prop} {E : Halt → Prop} (current : k.current = some id)
    (found : k.tasks id = some task) : wp callerContext Q E k ↔ Q (task.subject, task.getUserToken) k := by
  simp only [callerContext, wp_bind, wp_currentTask, current, wp_innerOf, found, wp_pure]

theorem sysAuditRead_performs (sound : Sound s.kernel) (current : s.kernel.current = some id)
    (records capacity afterSequence : Nat) :
    Performs (sysAuditRead records capacity afterSequence) (fun value s' =>
      s'.kernel.current = some id ∧ (0 ≤ value → s'.kernel.trace = s.kernel.trace)) s := by
  obtain ⟨task, found, alive⟩ := sound.running current
  apply wp_bind.mpr
  rw [wp_kernel, wp_callerContext current found]
  apply (readRecords_performs sound current found alive _ _ _ _).bind
  intro outcome s₂ _ both
  obtain ⟨current, same⟩ := both
  apply (finishControlCall_performs current _ _ _ _).mono
  exact fun _ _ _ last => ⟨last.1, fun positive => (last.2 positive).trans same⟩

theorem sysIpcStat_performs (sound : Sound s.kernel) (current : s.kernel.current = some id)
    (stats outSize flags : Nat) :
    Performs (sysIpcStat stats outSize flags) (fun value s' =>
      s'.kernel.current = some id ∧ (0 ≤ value → s'.kernel.trace = s.kernel.trace)) s := by
  obtain ⟨task, found, alive⟩ := sound.running current
  apply wp_bind.mpr
  rw [wp_kernel, wp_callerContext current found]
  apply (readStats_performs sound current found alive _ _ _ _).bind
  intro outcome s₂ _ both
  obtain ⟨current, same⟩ := both
  apply (finishControlCall_performs current _ _ _ _).mono
  exact fun _ _ _ last => ⟨last.1, fun positive => (last.2 positive).trans same⟩

/-! ### The table of system calls -/

/-- The caller is still running when a call has returned, and the call has been audited as it should be. -/
theorem syscall_performs (sound : Sound s.kernel) (current : s.kernel.current = some id)
    (found : s.kernel.tasks id = some task) (syscallId : Nat) (args : Nat × Nat × Nat)
    (opened : openCall id s.kernel.trace = some (entryOf task syscallId args, [])) :
    Performs (syscall syscallId args) (fun r s' => ∀ value, r = some value → Answers id s' value) s := by
  have returns : ∀ {p : KernelM P Int}, (entryOf task syscallId args).audited = none →
      Does p (fun _ k' => k'.current = some id) s.kernel →
      Performs (returning p) (fun r s' => ∀ value, r = some value → Answers id s' value) s := by
    intro p plain does
    apply wp_bind.mpr
    rw [wp_kernel]
    refine wp_mono does (fun value k₁ both => ?_) fun _ expected => expected
    refine ⟨Acts.system both.1, fun value _ => ?_⟩
    exact @answers_silent _ _ { s with kernel := k₁ } _ _ both.2 opened plain (both.1.continues id) value
  have value : ∀ {p : SystemM P Int}, Performs p (fun value s' => Answers id s' value) s →
      Performs (do return some (← p)) (fun r s' => ∀ value, r = some value → Answers id s' value) s := by
    intro p performs
    apply performs.bind
    intro ret s₁ _ last
    exact Performs.pure fun value same => Option.some.inj same ▸ last
  have leaves : ∀ {p : KernelM P Unit}, Does p (fun _ _ => True) s.kernel →
      Performs (do kernel p; return (none : Option Int)) (fun r s' => ∀ value, r = some value → Answers id s' value) s := by
    intro p does
    apply (Does.system does).bind
    intro _ s₁ _ _
    exact Performs.pure nofun
  -- the audit system calls are recorded if they fail
  have control : ∀ {p : SystemM P Int}, (entryOf task syscallId args).audited = none →
      (∀ value, (entryOf task syscallId args).unaudited value = decide (0 ≤ value)) →
      Performs p (fun value s' => s'.kernel.current = some id ∧ (0 ≤ value → s'.kernel.trace = s.kernel.trace)) s →
      Performs p (fun value s' => Answers id s' value) s := by
    intro p plain exempt performs
    apply performs.mono
    intro ret s₁ acts both
    obtain ⟨current₁, same⟩ := both
    by_cases positive : 0 ≤ ret
    · refine answers_silent current₁ opened plain ?_ ret
      rw [same positive]
      exact .refl id _
    · exact answers_exempt current₁ opened plain (by rw [exempt, decide_eq_false positive]) acts
  obtain ⟨a0, a1, a2⟩ := args
  unfold syscall
  dsimp only
  split
  · exact returns rfl (sysDup_does sound current _)
  · exact returns rfl (sysOpen_does sound current _ _)
  · exact returns rfl (sysClose_does sound current _)
  · exact value (sysPipe_performs sound current found _ opened)
  · exact sysRead_performs sound current found _ _ _ opened
  · exact sysWrite_performs sound current found _ _ _ opened
  · exact leaves (exitCurrentAndRunNext_does sound current _)
  · exact leaves (suspend_does current found .yielded trivial trivial ⟨_, opened, rfl⟩)
  · refine value ((sysKill_performs sound current _ _).mono fun _ _ acts current₁ => ?_)
    exact answers_exempt current₁ opened rfl rfl acts
  · exact returns rfl (sysSigaction_does sound current _ _ _)
  · exact returns rfl (sysSigprocmask_does sound current _)
  · exact returns rfl (sysSigreturn_does sound current)
  · exact returns rfl ⟨.refl, current⟩
  · exact returns rfl (sysGetpid_does sound current)
  · exact returns rfl (sysFork_does sound current)
  · exact returns rfl (sysExec_does sound current _ _)
  · exact returns rfl (sysWaitpid_does sound current _ _)
  · exact returns rfl (sysGetuid_does sound current)
  · exact returns rfl (sysSetuid_does sound current _)
  · exact value (control rfl (fun _ => rfl) (sysAuditRead_performs sound current _ _ _))
  · exact value (control rfl (fun _ => rfl) (sysIpcStat_performs sound current _ _ _))
  · exact rfl

end

end SecureIpc
