import SecureIpc.Guarantees.Pipes
import SecureIpc.Mm.UserView
import SecureIpc.Run.Trace

/-!
The quota of one process does not depend on another process. What a process is told by `sys_dup`,
`sys_close` and `sys_pipe` is determined by an account of its own, which only its own calls change.
-/

namespace SecureIpc
open Lib

/-! ### Accounts -/

inductive FileKind where
  | stdin
  | stdout
  | inode (readable writable : Bool)
  | pipe (readable writable : Bool)
  deriving DecidableEq, Repr

def File.kind : File → FileKind
  | .stdin => .stdin
  | .stdout => .stdout
  | .inode readable writable _ => .inode readable writable
  | .pipe endpoint => .pipe endpoint.readable endpoint.writable

structure Account where
  shape : List (Option FileKind)
  quota : QuotaState
  deriving DecidableEq, Repr

def TaskControlBlock.account (self : TaskControlBlock) : Account :=
  ⟨self.fdTable.map (Option.map File.kind), self.security.quota⟩

inductive FdCall where
  | dup (fd : Nat)
  | close (fd : Nat)
  | pipe (ptr : Nat)
  deriving DecidableEq, Repr

/-- What a call does to an account: the value returned, the array filled in by `sys_pipe`, and how
many pipe ids are used. -/
structure Outcome where
  account : Account
  value : Int
  array : List (Option UInt8)
  ids : Nat
  deriving DecidableEq, Repr

/-- The descriptor is one of a pipe. -/
def QuotaState.mark (self : QuotaState) (fd : Nat) : QuotaState :=
  { self with pipeFdMask := self.pipeFdMask ||| BitVec.twoPow 64 fd }

namespace Account

def refused (self : Account) (value : Int) : Outcome := ⟨self, value, [], 0⟩

def dup (self : Account) (fd : Nat) : Outcome :=
  match slot self.shape fd, self.quota.reserveDupFd fd with
  | none, _ => self.refused (-1)
  | some _, .error error => self.refused (ipcErrorToRet error)
  | some kind, .ok (quota, false) => ⟨⟨fill self.shape kind, quota⟩, freeSlot self.shape, [], 0⟩
  | some kind, .ok (quota, true) =>
    ⟨⟨fill self.shape kind, quota.mark (freeSlot self.shape)⟩, freeSlot self.shape, [], 0⟩

def close (self : Account) (fd : Nat) : Outcome :=
  match slot self.shape fd, self.quota.releaseFd fd with
  | some _, .ok quota => ⟨⟨self.shape.set fd none, quota⟩, 0, [], 0⟩
  | _, _ => self.refused (-1)

def pipeShape (self : Account) : List (Option FileKind) × Nat × Nat :=
  let reader := fill self.shape (.pipe true false)
  (fill reader (.pipe false true), freeSlot self.shape, freeSlot reader)

def pipe (self : Account) : Outcome :=
  let (shape, readFd, writeFd) := self.pipeShape
  match self.quota.reservePipeFds pipeEndpointsPerPipe with
  | .error error => self.refused (ipcErrorToRet error)
  | .ok quota =>
    ⟨⟨shape, (quota.mark readFd).mark writeFd⟩, 0, (toBytes 8 readFd ++ toBytes 8 writeFd).map some, 1⟩

theorem pipe_ok {self : Account} {quota : QuotaState} (reserved : self.quota.reservePipeFds pipeEndpointsPerPipe = .ok quota) :
    self.pipe = ⟨⟨self.pipeShape.1, (quota.mark self.pipeShape.2.1).mark self.pipeShape.2.2⟩, 0,
      (toBytes 8 self.pipeShape.2.1 ++ toBytes 8 self.pipeShape.2.2).map some, 1⟩ := by
  simp only [pipe, reserved]

theorem pipe_error {self : Account} {error : IpcError} (refuses : self.quota.reservePipeFds pipeEndpointsPerPipe = .error error) :
    self.pipe = self.refused (ipcErrorToRet error) := by
  simp only [pipe, refuses]

def apply (self : Account) : FdCall → Outcome
  | .dup fd => self.dup fd
  | .close fd => self.close fd
  | .pipe _ => self.pipe

end Account

theorem TaskControlBlock.account_pipeShape (self : TaskControlBlock) (object : IpcObject) : self.account.pipeShape =
    ((fill (fill self.fdTable (.pipe (.readEndWithBuffer object))) (.pipe (.writeEndWithBuffer object))).map
      (Option.map File.kind), freeSlot self.fdTable, freeSlot (fill self.fdTable (.pipe (.readEndWithBuffer object)))) := by
  have reader : FileKind.pipe true false = File.kind (.pipe (.readEndWithBuffer object)) := rfl
  have writer : FileKind.pipe false true = File.kind (.pipe (.writeEndWithBuffer object)) := rfl
  simp only [Account.pipeShape, account, reader, writer, fill_map, freeSlot_map]

/-! ### Calls of several processes -/

section
variable {P : Platform}

def FdCall.call : FdCall → SystemM P Int
  | .dup fd => kernel (sysDup fd)
  | .close fd => kernel (sysClose fd)
  | .pipe ptr => sysPipe ptr

def FdCall.array (id : Nat) (value : Int) : FdCall → KernelM P (List (Option UInt8))
  | .pipe ptr => do
    let inner ← innerOf id
    let mem ← userMemory
    return if value = 0 then (List.range 16).map fun i => userByte mem inner.getUserToken (ptr + i) else []
  | _ => return []

/-- The process `id` is running and makes a call; `switch_to` has changed nothing the calls look at
but which process that is. -/
def runAs (id : Nat) (call : FdCall) : SystemM P (Int × List (Option UInt8)) := do
  kernel (modify fun k => { k with current := some id })
  let value ← call.call
  return (value, ← kernel (call.array id value))

def runAll : List (Nat × FdCall) → SystemM P (List (Nat × Int × List (Option UInt8)))
  | [] => return []
  | (id, call) :: rest => do
    let reply ← runAs id call
    return (id, reply) :: (← runAll rest)

/-! ### One call -/

variable {s s' : System P} {id : Nat} {task : TaskControlBlock}

/-- What the calls rely on in the process that makes them. -/
structure Caller (s : System P) (id : Nat) (task : TaskControlBlock) : Prop where
  found : s.kernel.tasks id = some task
  accounted : Accounted task.fdTable task.security.quota
  user : UserSpace P.layout s.kernel.mm task.memorySet

/-- A call of `id` has the outcome, changes no other process, and writes to memory of its own only. -/
structure Served (s s' : System P) (id : Nat) (task task' : TaskControlBlock) (ids : Nat) : Prop where
  tasks : s'.kernel.tasks = Kernel.set s.kernel.tasks id (some task')
  space : task'.memorySet = task.memorySet
  accounted : Accounted task'.fdTable task'.security.quota
  stored : Stored s.kernel.mm s'.kernel.mm task.memorySet.userFrames
  log : HoldsLog s'
  next : s'.kernel.nextPipeId = s.kernel.nextPipeId + ids

theorem HoldsLog.congr (holds : HoldsLog s) (trace : s'.kernel.trace = s.kernel.trace) (ring : s'.auditRing = s.auditRing) :
    HoldsLog s' := by
  rw [HoldsLog, auditLog, trace, ring]
  exact holds

theorem Logged.holdsLog {event : Option AuditEvent} (logged : Logged s event s') (holds : HoldsLog s) : HoldsLog s' := by
  cases event with
  | none =>
    rw [show s' = s from logged]
    exact holds
  | some event =>
    obtain ⟨auditRing, pushed, rfl⟩ := logged
    exact SystemAct.holdsLog (.record pushed) holds

theorem Logged.nextPipeId {event : Option AuditEvent} (logged : Logged s event s') :
    s'.kernel.nextPipeId = s.kernel.nextPipeId := by
  cases event with
  | none => rw [show s' = s from logged]
  | some event =>
    obtain ⟨auditRing, pushed, rfl⟩ := logged
    rfl

theorem dupFd_account (accounted : Accounted task.fdTable task.security.quota) (fd : Nat) :
    ∃ fdTable quota ret, task.dupFd fd = .ok ({ task with fdTable, security := { task.security with quota } }, ret) ∧
      Accounted fdTable quota ∧
      task.account.dup fd = ⟨⟨fdTable.map (Option.map File.kind), quota⟩, ret, [], 0⟩ := by
  unfold TaskControlBlock.dupFd ProcessSecurityState.reserveDupFd QuotaState.reserveDupFd Account.dup
    TaskControlBlock.account QuotaState.reserveDupFd
  rw [TaskControlBlock.file_eq_slot, accounted.isPipeFd, slot_map, freeSlot_map]
  cases opened : slot task.fdTable fd with
  | none => exact ⟨task.fdTable, task.security.quota, -1, rfl, accounted, rfl⟩
  | some file =>
    have kind : isPipeSlot (some file) = file.isPipe := rfl
    rw [kind, Option.map_some]
    cases isPipe : file.isPipe with
    | false =>
      simp only [Bool.false_eq_true, if_false, reserveFiles_eq _ accounted.fewFiles]
      split_ifs with room
      · refine ⟨fill task.fdTable file, _, freeSlot task.fdTable, ?_, accounted.fill_plain room isPipe, ?_⟩
        · simp only [bind, Except.bind, pure, Except.pure, TaskControlBlock.installFd_eq, Except.mapError]
          rfl
        · rw [← fill_map]
          rfl
      · exact ⟨task.fdTable, task.security.quota, _, rfl, accounted, rfl⟩
    | true =>
      simp only [if_true]
      cases reserved : task.security.quota.reservePipeFds 1 with
      | error error => exact ⟨task.fdTable, task.security.quota, _, rfl, accounted, rfl⟩
      | ok quota =>
        obtain ⟨room, roomForPipe, rfl⟩ := reservePipeFds_ok reserved
        refine ⟨fill task.fdTable file, _, freeSlot task.fdTable, ?_, accounted.fill_pipe room roomForPipe isPipe, ?_⟩
        · simp only [bind, Except.bind, pure, Except.pure, TaskControlBlock.installFd_eq, Except.mapError,
            ProcessSecurityState.registerPipeFd, registerPipeFd_eq (accounted.freeSlot_lt room), if_true]
        · rw [← fill_map]
          rfl

theorem closeFd_account (accounted : Accounted task.fdTable task.security.quota) (fd : Nat) :
    ∃ fdTable quota ret, task.closeFd fd = .ok ({ task with fdTable, security := { task.security with quota } }, ret) ∧
      Accounted fdTable quota ∧
      task.account.close fd = ⟨⟨fdTable.map (Option.map File.kind), quota⟩, ret, [], 0⟩ := by
  unfold TaskControlBlock.closeFd ProcessSecurityState.releaseFd Account.close TaskControlBlock.account
  rw [TaskControlBlock.file_eq_slot, slot_map]
  cases opened : slot task.fdTable fd with
  | none => exact ⟨task.fdTable, task.security.quota, -1, rfl, accounted, rfl⟩
  | some file =>
    obtain ⟨quota, released, after⟩ := accounted.release opened
    refine ⟨task.fdTable.set fd none, quota, 0, ?_, after, ?_⟩
    · simp only [released, bind, Except.bind, pure, Except.pure]
    · simp only [released, Option.map_some, List.map_set]
      rfl

theorem copyDescriptors_done {layout : Layout} {mm : Mm} {space : MemorySet} {ptr : Nat} (user : UserSpace layout mm space)
    (range : UserRange mm.mem space.token ptr 16 true) (readFd writeFd : Nat) :
    wp (copyDescriptors space.token ptr readFd writeFd) (fun copied mm' => copied = .ok () ∧
      Stored mm mm' space.userFrames ∧ (List.range 16).map (fun i => userByte mm'.mem space.token (ptr + i)) =
        (toBytes 8 readFd ++ toBytes 8 writeFd).map some) (fun _ => False) mm := by
  have words : ∀ value, toBytes 8 value ≠ [] := fun value => List.ne_nil_of_length_pos (by rw [toBytes_length]; decide)
  have limit := range.1
  have first : UserRange mm.mem space.token ptr (toBytes 8 readFd).length true := by
    rw [toBytes_length]
    exact range.shorter (by decide)
  unfold copyDescriptors
  apply wp_bind.mpr
  obtain ⟨mem₁, run, written⟩ := copyToUser_ok (words readFd) user.distinct first
  have stored := wp_ok (copyToUser_stored user ptr (toBytes 8 readFd)) run
  have user₁ := user.stored stored fun _ => userFrames_subset
  refine wp_of_run run ?_
  dsimp only
  rw [Nat.mod_eq_of_lt (by omega)]
  have second : UserRange mem₁ space.token (ptr + 8) (toBytes 8 writeFd).length true := by
    rw [toBytes_length]
    exact UserRange.congr (written.translate user.distinct first) (range.part (by omega) (by omega))
  obtain ⟨mem₂, run₂, written₂⟩ := copyToUser_ok (words writeFd) user₁.distinct second
  have later := wp_ok (copyToUser_stored user₁ (ptr + 8) (toBytes 8 writeFd)) run₂
  refine wp_of_run run₂ ⟨rfl, stored.trans later, ?_⟩
  have whole : UserRange mm.mem space.token ptr ((toBytes 8 readFd).length + (toBytes 8 writeFd).length) true := by
    rw [toBytes_length, toBytes_length]
    exact range
  have both : Written mm.mem mem₂ space.token ptr (toBytes 8 readFd ++ toBytes 8 writeFd) := by
    refine written.append user.distinct whole ?_
    rw [toBytes_length]
    exact written₂
  have size : (toBytes 8 readFd ++ toBytes 8 writeFd).length = 16 := by rw [List.length_append, toBytes_length, toBytes_length]
  refine List.ext_getElem (by simp) fun i inside _ => ?_
  have place : i < (toBytes 8 readFd ++ toBytes 8 writeFd).length := by
    rw [size]
    simpa using inside
  obtain ⟨pa, address, value⟩ := both.inside i place
  have same := both.translate user.distinct (by rw [size]; exact range)
  rw [List.getElem_map, List.getElem_range, List.getElem_map, userByte, PageTable.translateVa, same]
  rw [PageTable.translateVa] at address
  rw [address]
  exact congrArg some value

theorem finishPipe_account {reader writer : File} {quota' : QuotaState} {request : IpcRequest} (log : HoldsLog s)
    (isReader : reader.isPipe = true) (isWriter : writer.isPipe = true)
    (accounted : Accounted task.fdTable task.security.quota) (reserved : task.security.quota.reservePipeFds 2 = .ok quota') :
    wp (finishPipe id ⟨request, ⟨.pipeFds, 2⟩⟩ (freeSlot task.fdTable) (freeSlot (fill task.fdTable reader)) (.ok ()))
      (fun value s' => value = 0 ∧ s'.kernel.mm = s.kernel.mm ∧ HoldsLog s' ∧ s'.kernel.nextPipeId = s.kernel.nextPipeId ∧
        ∃ quota, s'.kernel.tasks = Kernel.set s.kernel.tasks id (some { task with
            fdTable := fill (fill task.fdTable reader) writer, security := { task.security with quota } }) ∧
          Accounted (fill (fill task.fdTable reader) writer) quota ∧
          quota = (quota'.mark (freeSlot task.fdTable)).mark (freeSlot (fill task.fdTable reader)))
      (fun _ => False)
      { s with kernel := s.kernel.setTask id { task with
          fdTable := fill (fill task.fdTable reader) writer, security := { task.security with quota := quota' } } } := by
  obtain ⟨room, roomForPipe, rfl⟩ := reservePipeFds_ok reserved
  have one := accounted.fill_pipe (by omega) (by omega) isReader
  have two := one.fill_pipe room roomForPipe isWriter
  unfold finishPipe
  simp only [wp_bind, wp_kernel, wp_innerOf, Kernel.setTask_same, wp_putInner, wp_pure]
  rw [registerPipeFd_security (registerPipeFd_eq (accounted.freeSlot_lt (by omega))), wp_lift_ok,
    registerPipeFd_security (registerPipeFd_eq (one.freeSlot_lt room)), wp_lift_ok]
  have holds : HoldsLog { s with kernel := s.kernel.setTask id { task with
      fdTable := fill (fill task.fdTable reader) writer
      security := { task.security with quota := { task.security.quota with
        openFiles := task.security.quota.openFiles + 2, openPipes := task.security.quota.openPipes + 2 } } } } :=
    log.congr rfl rfl
  refine complete_rule (by exact rfl) (fun s' logged => ?_) fun event f stopped => holds.push_ne_error event f stopped
  refine ⟨rfl, logged.mm, (logged.holdsLog holds).congr rfl rfl, logged.nextPipeId, _, ?_, two, rfl⟩
  have tasks := logged.tasks
  simp only [Kernel.setTask, tasks, Kernel.set_set]

theorem sysPipe_account {ptr : Nat} (caller : Caller s id task) (log : HoldsLog s) (current : s.kernel.current = some id)
    (range : UserRange s.kernel.mm.mem task.getUserToken ptr 16 true) (ids : s.kernel.nextPipeId + 1 < 2 ^ 64) :
    wp (sysPipe ptr) (fun value s' => ∃ task', Served s s' id task task' task.account.pipe.ids ∧
      task.account.pipe.account = task'.account ∧ task.account.pipe.value = value ∧
      task.account.pipe.array = (if value = 0 then
        (List.range 16).map fun i => userByte s'.kernel.mm.mem task.getUserToken (ptr + i) else [])) (fun _ => False) s := by
  obtain ⟨found, accounted, user⟩ := caller
  simp only [sysPipe, wp_bind, wp_kernel, wp_currentUserToken current found, wp_currentTask, current, wp_innerOf, found]
  refine preflight_rule ?_ ?_ fun event f stopped => log.push_ne_error event f stopped
  · intro quota reservation _ reserve
    obtain ⟨quota', reserved, last⟩ := bind_ok reserve
    obtain ⟨rfl, rfl⟩ := Prod.mk.inj (Except.ok.inj last)
    apply wp_bind.mpr
    rw [wp_kernel]
    refine makePipe_rule _ (fun full => absurd ids full) fun _ => ?_
    simp only [wp_bind, wp_kernel, TaskControlBlock.installFd_eq, fault, Except.mapError, wp_lift_ok, wp_putInner]
    refine wp_zoom (wp_mono (copyDescriptors_done user range _ _) ?_ fun _ impossible => impossible.elim)
    intro copied m both
    obtain ⟨rfl, stored, bytes⟩ := both
    let s₁ : System P := { s with kernel := { ({ s.kernel with nextPipeId := s.kernel.nextPipeId + 1 }.setPipe
      s.kernel.nextPipeId (PipeRingBuffer.new.setWriteEnd s.kernel.nextPipeId)) with mm := m } }
    have log₁ : HoldsLog s₁ := log.congr rfl rfl
    refine wp_mono (finishPipe_account (s := s₁) log₁ rfl rfl accounted reserved) ?_ fun _ impossible => impossible.elim
    intro value s' facts
    obtain ⟨rfl, memory, log', next, quota, tasks, after, rfl⟩ := facts
    rw [Account.pipe_ok reserved, task.account_pipeShape ⟨s.kernel.nextPipeId, task.security.credentials.uid⟩]
    refine ⟨_, ⟨tasks, rfl, after, ?_, log', next⟩, rfl, rfl, ?_⟩
    · rw [memory]
      exact stored
    · rw [if_pos rfl, memory]
      exact bytes.symm
  · intro error s' logged refused
    rcases refused with denied | ⟨_, reserve⟩
    · cases denied
    · have limits : task.security.quota.reservePipeFds pipeEndpointsPerPipe = .error error := by
        cases limit : task.security.quota.reservePipeFds pipeEndpointsPerPipe with
        | ok quota' =>
          rw [Quota.reserve, limit] at reserve
          cases reserve
        | error other =>
          rw [Quota.reserve, limit] at reserve
          exact congrArg Except.error (Except.error.inj reserve)
      have negative := (ipcErrorToRet_eq error).2
      rw [Account.pipe_error limits]
      refine ⟨task, ⟨?_, rfl, accounted, ?_, logged.holdsLog log, logged.nextPipeId⟩, rfl, rfl, ?_⟩
      · rw [logged.tasks, Kernel.set_self found]
      · rw [logged.mm]
        exact Stored.refl _ _
      · rw [if_neg (by omega)]
        rfl

theorem runAs_account {call : FdCall} (caller : Caller s id task) (log : HoldsLog s)
    (valid : ∀ ptr, call = .pipe ptr → UserRange s.kernel.mm.mem task.getUserToken ptr 16 true)
    (ids : s.kernel.nextPipeId + 1 < 2 ^ 64) :
    wp (runAs id call) (fun reply s' => ∃ task', Served s s' id task task' (task.account.apply call).ids ∧
      task.account.apply call = ⟨task'.account, reply.1, reply.2, (task.account.apply call).ids⟩) (fun _ => False) s := by
  obtain ⟨found, accounted, user⟩ := caller
  unfold runAs
  cases call with
  | dup fd =>
    obtain ⟨fdTable, quota, ret, run, after, outcome⟩ := dupFd_account accounted fd
    simp only [FdCall.call, FdCall.array, sysDup, wp_bind, wp_kernel, wp_modify, wp_currentTask, wp_innerOf, found, run,
      wp_lift_ok, wp_putInner, wp_pure, Account.apply, outcome]
    exact ⟨_, ⟨rfl, rfl, after, Stored.refl _ _, log.congr rfl rfl, rfl⟩, rfl⟩
  | close fd =>
    obtain ⟨fdTable, quota, ret, run, after, outcome⟩ := closeFd_account accounted fd
    simp only [FdCall.call, FdCall.array, sysClose, wp_bind, wp_kernel, wp_modify, wp_currentTask, wp_innerOf, found, run,
      wp_lift_ok, wp_putInner, wp_pure, Account.apply, outcome]
    exact ⟨_, ⟨rfl, rfl, after, Stored.refl _ _, log.congr rfl rfl, rfl⟩, rfl⟩
  | pipe ptr =>
    let s₀ : System P := { s with kernel := { s.kernel with current := some id } }
    have started : Caller s₀ id task := ⟨found, accounted, user⟩
    have spec := sysPipe_account started (log.congr rfl rfl) rfl (valid ptr rfl) ids
    simp only [FdCall.call, FdCall.array, wp_bind, wp_kernel, wp_modify]
    refine wp_mono spec ?_ fun _ impossible => impossible.elim
    intro value s' facts
    obtain ⟨task', served, account, same, array⟩ := facts
    have found' : s'.kernel.tasks id = some task' := by
      rw [served.tasks, Kernel.set_same]
    have token : task'.getUserToken = task.getUserToken := congrArg MemorySet.token served.space
    simp only [wp_innerOf, found', wp_userMemory, wp_pure, token]
    refine ⟨task', ⟨served.tasks, served.space, served.accounted, served.stored, served.log, served.next⟩, ?_⟩
    rw [Account.apply, ← account, ← array, ← same]

/-! ### Two processes -/

variable {task' other : TaskControlBlock} {ids p q : Nat}

theorem UserSpace.sameTable {layout : Layout} {mm : Mm} {space : MemorySet} {mem : PhysMem} (user : UserSpace layout mm space)
    (same : ∀ x, x / 4096 ∈ space.pageTable.frames → mem x = mm.mem x) : SameTable mm.mem mem space.token := by
  refine fun vpn => translate_of_nodes (fun x known => ?_) vpn
  rw [user.whole.fromToken_root] at known
  exact same x (user.whole.tableNode known)

theorem Served.caller (served : Served s s' id task task' ids) (caller : Caller s id task) :
    Caller s' id task' ∧ SameTable s.kernel.mm.mem s'.kernel.mm.mem task.getUserToken := by
  refine ⟨⟨?_, served.accounted, ?_⟩, caller.user.sameTable fun x node => served.stored.outside x fun inside => ?_⟩
  · rw [served.tasks, Kernel.set_same]
  · rw [served.space]
    exact caller.user.stored served.stored fun _ => userFrames_subset
  · exact caller.user.whole.owns.disjoint node (userFrames_subset inside)

/-- Another process does not notice the call. -/
theorem Served.beside (served : Served s s' id task task' ids) (caller : Caller s id task) (bystander : Caller s p other)
    (different : p ≠ id) (apart : ∀ f ∈ other.memorySet.frames, f ∉ task.memorySet.frames) :
    Caller s' p other ∧ SameTable s.kernel.mm.mem s'.kernel.mm.mem other.getUserToken := by
  have mine : ∀ f ∈ task.memorySet.userFrames, f ∈ task.memorySet.frames := fun f inside =>
    List.mem_append_right _ (userFrames_subset inside)
  refine ⟨⟨?_, bystander.accounted, ?_⟩, bystander.user.sameTable fun x node => served.stored.outside x fun inside => ?_⟩
  · rw [served.tasks, Kernel.set_other different]
    exact bystander.found
  · exact bystander.user.other (served.stored.evolves caller.user.whole.owns mine) apart
  · exact apart _ (List.mem_append_left _ node) (mine _ inside)

/-- The arrays that `id` passes in these calls are writable. -/
def ValidArrays (s : System P) (id : Nat) (task : TaskControlBlock) (calls : List (Nat × FdCall)) : Prop :=
  ∀ ptr, (id, FdCall.pipe ptr) ∈ calls → UserRange s.kernel.mm.mem task.getUserToken ptr 16 true

/-- Pipe ids are left whenever one of the calls is made. -/
def IdsLeft (s : System P) (calls : List (Nat × FdCall)) : Prop :=
  ∀ earlier call later replies s', calls = earlier ++ call :: later → runAll earlier s = .ok (replies, s') →
    s'.kernel.nextPipeId + 1 < 2 ^ 64

theorem runAll_cons {call : FdCall} {calls : List (Nat × FdCall)} {reply : Int × List (Option UInt8)} {s'' : System P}
    {replies : List (Nat × Int × List (Option UInt8))} (first : runAs id call s = .ok (reply, s'))
    (rest : runAll calls s' = .ok (replies, s'')) : runAll ((id, call) :: calls) s = .ok ((id, reply) :: replies, s'') := by
  rw [runAll, run_bind first, run_bind rest]
  rfl

theorem ValidArrays.later {call : Nat × FdCall} {calls : List (Nat × FdCall)} (valid : ValidArrays s id task (call :: calls))
    (same : SameTable s.kernel.mm.mem s'.kernel.mm.mem task.getUserToken) (space : task'.memorySet = task.memorySet) :
    ValidArrays s' id task' calls := by
  intro ptr member
  rw [TaskControlBlock.getUserToken, space]
  exact same.range.mpr (valid ptr (List.mem_cons_of_mem _ member))

theorem IdsLeft.later {call : FdCall} {calls : List (Nat × FdCall)} {reply : Int × List (Option UInt8)}
    (left : IdsLeft s ((id, call) :: calls)) (first : runAs id call s = .ok (reply, s')) : IdsLeft s' calls := by
  intro earlier next later replies s'' split ran
  exact left ((id, call) :: earlier) next later _ s'' (by rw [split]; rfl) (runAll_cons first ran)

/-- The same process in two runs, of which the second has used no more pipe ids. -/
structure SameAccount (s₁ s₂ : System P) (p : Nat) (t₁ t₂ : TaskControlBlock) : Prop where
  first : Caller s₁ p t₁
  second : Caller s₂ p t₂
  account : t₁.account = t₂.account
  space : t₁.memorySet = t₂.memorySet
  log₁ : HoldsLog s₁
  log₂ : HoldsLog s₂
  ids : s₂.kernel.nextPipeId ≤ s₁.kernel.nextPipeId

variable {s₁ s₂ : System P} {t₁ t₂ u : TaskControlBlock} {call : FdCall} {calls : List (Nat × FdCall)}

/-- A call of the process itself, made in both runs. -/
theorem SameAccount.own (same : SameAccount s₁ s₂ p t₁ t₂) (left : s₁.kernel.nextPipeId + 1 < 2 ^ 64)
    (valid : ∀ ptr, call = .pipe ptr → UserRange s₁.kernel.mm.mem t₁.getUserToken ptr 16 true)
    (valid' : ∀ ptr, call = .pipe ptr → UserRange s₂.kernel.mm.mem t₂.getUserToken ptr 16 true) :
    ∃ reply s₁' s₂' t₁' t₂' ids, runAs p call s₁ = .ok (reply, s₁') ∧ runAs p call s₂ = .ok (reply, s₂') ∧
      Served s₁ s₁' p t₁ t₁' ids ∧ Served s₂ s₂' p t₂ t₂' ids ∧ SameAccount s₁' s₂' p t₁' t₂' := by
  obtain ⟨reply, s₁', run, t₁', served, outcome⟩ := wp_returns (runAs_account same.first same.log₁ valid left)
  obtain ⟨reply', s₂', run', t₂', served', outcome'⟩ :=
    wp_returns (runAs_account same.second same.log₂ valid' (Nat.lt_of_le_of_lt (Nat.add_le_add_right same.ids 1) left))
  rw [← same.account] at outcome' served'
  obtain ⟨account, value, array, _⟩ := Outcome.mk.inj (outcome.symm.trans outcome')
  obtain rfl : reply = reply' := Prod.ext value array
  refine ⟨reply, s₁', s₂', t₁', t₂', _, run, run', served, served', (served.caller same.first).1,
    (served'.caller same.second).1, account, ?_, served.log, served'.log, ?_⟩
  · rw [served.space, served'.space, same.space]
  · rw [served.next, served'.next]
    exact Nat.add_le_add_right same.ids _

/-- A call of the other process, made in the first run only. -/
theorem SameAccount.beside (same : SameAccount s₁ s₂ p t₁ t₂) (served : Served s₁ s' q u task' ids) (caller : Caller s₁ q u)
    (different : p ≠ q) (apart : ∀ f ∈ t₁.memorySet.frames, f ∉ u.memorySet.frames) : SameAccount s' s₂ p t₁ t₂ := by
  refine ⟨(served.beside caller same.first different apart).1, same.second, same.account, same.space, served.log, same.log₂, ?_⟩
  rw [served.next]
  exact Nat.le_trans same.ids (Nat.le_add_right _ _)

theorem runAll_own (different : p ≠ q) (same : SameAccount s₁ s₂ p t₁ t₂) (caller : Caller s₁ q u)
    (apart : ∀ f ∈ t₁.memorySet.frames, f ∉ u.memorySet.frames) (callers : ∀ call ∈ calls, call.1 = p ∨ call.1 = q)
    (valid : ValidArrays s₁ p t₁ calls) (valid' : ValidArrays s₂ p t₂ calls) (theirs : ValidArrays s₁ q u calls)
    (left : IdsLeft s₁ calls) :
    ∃ all s₁' own s₂' t₁' t₂', runAll calls s₁ = .ok (all, s₁') ∧
      runAll (calls.filter fun call => call.1 = p) s₂ = .ok (own, s₂') ∧ (all.filter fun reply => reply.1 = p) = own ∧
      s₁'.kernel.tasks p = some t₁' ∧ s₂'.kernel.tasks p = some t₂' ∧ t₁'.account = t₂'.account := by
  induction calls generalizing s₁ s₂ t₁ t₂ u with
  | nil => exact ⟨[], s₁, [], s₂, t₁, t₂, rfl, rfl, rfl, same.first.found, same.second.found, same.account⟩
  | cons head rest ih =>
    obtain ⟨id, call⟩ := head
    have now : s₁.kernel.nextPipeId + 1 < 2 ^ 64 := left [] _ rest [] s₁ rfl rfl
    have rest_callers : ∀ call ∈ rest, call.1 = p ∨ call.1 = q := fun other member => callers other (List.mem_cons_of_mem _ member)
    rcases callers _ List.mem_cons_self with mine | other
    · obtain rfl : id = p := mine
      obtain ⟨reply, s₁', s₂', t₁', t₂', ids, run, run', served, served', after⟩ := same.own now
        (fun ptr made => valid ptr (made ▸ List.mem_cons_self)) fun ptr made => valid' ptr (made ▸ List.mem_cons_self)
      have apart' : ∀ f ∈ t₁'.memorySet.frames, f ∉ u.memorySet.frames := by
        rw [served.space]
        exact apart
      obtain ⟨caller', table⟩ := served.beside same.first caller different.symm fun f theirs mine => apart f mine theirs
      obtain ⟨all, s₁'', own, s₂'', t₁'', t₂'', ran, ran', equal, facts⟩ := ih after caller' apart' rest_callers
        (valid.later (served.caller same.first).2 served.space) (valid'.later (served'.caller same.second).2 served'.space)
        (theirs.later table rfl) (left.later run)
      refine ⟨(id, reply) :: all, s₁'', (id, reply) :: own, s₂'', t₁'', t₂'', runAll_cons run ran, ?_, ?_, facts⟩
      · rw [List.filter_cons_of_pos (by simp)]
        exact runAll_cons run' ran'
      · rw [List.filter_cons_of_pos (by simp), equal]
    · obtain rfl : id = q := other
      obtain ⟨reply, s₁', run, u', served, _⟩ := wp_returns (runAs_account caller same.log₁
        (fun ptr made => theirs ptr (made ▸ List.mem_cons_self)) now)
      have apart' : ∀ f ∈ t₁.memorySet.frames, f ∉ u'.memorySet.frames := by
        rw [served.space]
        exact apart
      obtain ⟨caller', table⟩ := served.caller caller
      obtain ⟨all, s₁'', own, s₂'', t₁'', t₂'', ran, ran', equal, facts⟩ := ih (same.beside served caller different apart)
        caller' apart' rest_callers (valid.later (served.beside caller same.first different apart).2 rfl)
        (valid'.later (.refl _ _) rfl) (theirs.later table served.space) (left.later run)
      refine ⟨(id, reply) :: all, s₁'', own, s₂'', t₁'', t₂'', runAll_cons run ran, ?_, ?_, facts⟩
      · rw [List.filter_cons_of_neg (by simpa using different.symm)]
        exact ran'
      · rw [List.filter_cons_of_neg (by simpa using different.symm), equal]

/-- Whatever `q` does, `p` is told the same and ends with the same table and the same quota. -/
theorem quota_use_isolated (reachable : Reachable s) {p q : Nat} {t u : TaskControlBlock} (different : p ≠ q)
    (found : s.kernel.tasks p = some t) (alive : t.isZombie = false) (foundOther : s.kernel.tasks q = some u)
    (aliveOther : u.isZombie = false) (calls : List (Nat × FdCall)) (callers : ∀ call ∈ calls, call.1 = p ∨ call.1 = q)
    (valid : ValidArrays s p t calls) (validOther : ValidArrays s q u calls) (left : IdsLeft s calls) :
    ∃ all s₁ own s₂ t₁ t₂, runAll calls s = .ok (all, s₁) ∧
      runAll (calls.filter fun call => call.1 = p) s = .ok (own, s₂) ∧ (all.filter fun reply => reply.1 = p) = own ∧
      s₁.kernel.tasks p = some t₁ ∧ s₂.kernel.tasks p = some t₂ ∧ t₁.account = t₂.account := by
  have sound := reachable.sound
  have caller : Caller s p t := ⟨found, (sound.task found).accounted alive, sound.user found alive⟩
  have other : Caller s q u := ⟨foundOther, (sound.task foundOther).accounted aliveOther, sound.user foundOther aliveOther⟩
  have apart : ∀ f ∈ t.memorySet.frames, f ∉ u.memorySet.frames := by
    have separate := sound.isolated.separate.apart (some p) (some q) (by simpa using different)
    rwa [owned_some found, owned_some foundOther] at separate
  have log := reachable.holdsLog
  exact runAll_own different ⟨caller, caller, rfl, rfl, log, log, Nat.le_refl _⟩ other apart callers valid valid validOther left

end

def sampleCalls : List (Nat × FdCall) := [(1, .pipe 0x10100), (0, .pipe 0x10100), (1, .dup 0), (0, .close 3)]

/-- The child opens a pipe of its own first, and the parent is told the same descriptors all the same. -/
theorem quota_use_isolated_child : ∃ (s : System sample) (all : List (Nat × Int × List (Option UInt8))) (s₁ : System sample)
    (own : List (Nat × Int × List (Option UInt8))) (s₂ : System sample) (t₁ t₂ : TaskControlBlock),
    Reachable s ∧ runAll sampleCalls s = .ok (all, s₁) ∧
      runAll (sampleCalls.filter fun call => call.1 = 0) s = .ok (own, s₂) ∧ (all.filter fun reply => reply.1 = 0) = own ∧
      s₁.kernel.tasks 0 = some t₁ ∧ s₂.kernel.tasks 0 = some t₂ ∧ t₁.account = t₂.account := by
  have ran : ((run sample [.schedule 0 [], ecall 220 0 0 0]).toOption.any fun s =>
      (s.kernel.tasks 0).any fun t => (s.kernel.tasks 1).any fun u => !t.isZombie && (!u.isZombie &&
        (checkUserRange s.kernel.mm.mem t.getUserToken 0x10100 16 true &&
        (checkUserRange s.kernel.mm.mem u.getUserToken 0x10100 16 true &&
        (List.range 4).all fun n => (runAll (sampleCalls.take n) s).toOption.all fun r =>
          decide (r.2.kernel.nextPipeId + 1 < 2 ^ 64))))) = true := by
    decide +kernel
  simp only [Option.any_eq_true, toOption_eq_some, Bool.and_eq_true, Bool.not_eq_true', List.all_eq_true, List.mem_range,
    checkUserRange_iff_range (show 16 ≠ 0 by decide)] at ran
  obtain ⟨s, result, t, found, u, foundChild, alive, aliveChild, range, rangeChild, ids⟩ := ran
  have left : IdsLeft s sampleCalls := by
    intro earlier call later replies s' split made
    have size := congrArg List.length split
    have taken : sampleCalls.take earlier.length = earlier := by rw [split, List.take_left]
    have fresh := ids earlier.length (by simp [sampleCalls] at size; omega)
    rw [taken, made] at fresh
    simpa [Except.toOption] using fresh
  have valid : ValidArrays s 0 t sampleCalls := by
    intro ptr member
    obtain rfl : ptr = 0x10100 := by simpa [sampleCalls] using member
    exact range
  have validChild : ValidArrays s 1 u sampleCalls := by
    intro ptr member
    obtain rfl : ptr = 0x10100 := by simpa [sampleCalls] using member
    exact rangeChild
  have reachable := run_reachable result
  obtain ⟨all, s₁, own, s₂, t₁, t₂, facts⟩ := quota_use_isolated reachable (by decide) found alive foundChild aliveChild
    sampleCalls (by simp [sampleCalls]) valid validChild left
  exact ⟨s, all, s₁, own, s₂, t₁, t₂, reachable, facts⟩

end SecureIpc
