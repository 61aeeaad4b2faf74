import SecureIpc.Fs.Ring
import SecureIpc.Run.Isolation

/-! The invariants of single tasks and of pipes, kept by every act of the kernel. -/

namespace SecureIpc
open Lib

section
variable {P : Platform}

/-! ### What becomes of a task -/

inductive Successor (k : Kernel P) (task : TaskControlBlock) : TaskControlBlock → Prop where
  | refl : Successor k task task
  | moved (parent : Option Nat) (children : List Nat) : Successor k task { task with parent, children }
  | scheduled (taskStatus : TaskStatus) (resume : KernelPoint) (live : taskStatus ≠ .zombie)
      (known : k.KnownPoint resume) (alive : task.isZombie = false) : Successor k task { task with taskStatus, resume }
  | signals (signals signalMask : SignalFlags) (handlingSig : Int) (signalActions : List SignalAction)
      (frozen : Bool) (trapCtxBackup : Option TrapContext)
      (formed : task.SignalsFormed →
        (task.withSignals signals signalMask handlingSig signalActions task.killed frozen trapCtxBackup).SignalsFormed)
      (backup : task.BackupFormed → ∀ context, trapCtxBackup = some context → context.x.length = 32) :
      Successor k task (task.withSignals signals signalMask handlingSig signalActions task.killed frozen trapCtxBackup)
  | credentials {uid : Nat} {credentials : Credentials}
      (changed : task.security.credentials.setUid uid = .ok credentials) :
      Successor k task { task with security := { task.security with credentials } }
  | descriptors (fdTable : List (Option File)) (quota : QuotaState)
      (accounts : Accounted task.fdTable task.security.quota → Accounted fdTable quota)
      (known : k.KnownFiles task.fdTable → k.KnownFiles fdTable) (alive : task.isZombie = false) :
      Successor k task { task with fdTable, security := { task.security with quota } }
  | exited (memorySet : MemorySet) (exitCode : Int) : Successor k task (task.exited memorySet exitCode)
  | forked (id pid trapCxPpn : Nat) (memorySet : MemorySet) (alive : task.isZombie = false) :
      Successor k task (task.forked id pid trapCxPpn memorySet)
  | execed (memorySet : MemorySet) (trapCxPpn : Nat) : Successor k task { task with memorySet, trapCxPpn }

open Kernel

/-- Every task after an act comes from one before it; a new task comes from the running one. -/
theorem Act.successor {k k' : Kernel P} (act : Act k k') (formed : k.table.WellFormed) {other : Nat}
    {task' : TaskControlBlock} (looked : k'.tasks other = some task') : ∃ id task, k.tasks id = some task ∧ Successor k task task' ∧
      (id = other ∨ k.current = some id ∧ other = k.nextTask ∧ task'.killed = false) := by
  have single : ∀ {id : Nat} {task changed : TaskControlBlock}, k.tasks id = some task → Successor k task changed →
      set k.tasks id (some changed) other = some task' → ∃ id task, k.tasks id = some task ∧ Successor k task task' ∧
      (id = other ∨ k.current = some id ∧ other = k.nextTask ∧ task'.killed = false) := by
    intro id task changed found next looked
    rcases setTask_cases looked with ⟨rfl, rfl⟩ | ⟨_, old⟩
    · exact ⟨other, task, found, next, Or.inl rfl⟩
    · exact ⟨other, task', old, .refl, Or.inl rfl⟩
  have running : ∀ {id : Nat} {task : TaskControlBlock}, k.current = some id → k.tasks id = some task →
      task.isZombie = false := fun current found => formed.current_live current (table_place found)
  cases act with
  | environment | files | began | ended | memory | take | store | makePipe => exact ⟨other, task', looked, .refl, Or.inl rfl⟩
  | signals found _ _ _ _ _ _ formed backup => exact single found (.signals _ _ _ _ _ _ formed backup) looked
  | credentials _ found changed => exact single found (.credentials changed) looked
  | descriptors current found fdTable quota accounts known =>
    exact single found (.descriptors _ _ accounts known (running current found)) looked
  | suspend point current found known =>
    exact single found (.scheduled .ready point nofun known (running current found)) looked
  | exec _ found => exact single found (.execed _ _) looked
  | @exit id task memorySet mm exitCode _ found =>
    rcases setTask_cases looked with ⟨rfl, rfl⟩ | ⟨_, old⟩
    · exact ⟨other, task, found, .exited memorySet exitCode, Or.inl rfl⟩
    · unfold adopted at old
      split_ifs at old
      · obtain ⟨before, found, rfl⟩ := Option.map_eq_some_iff.mp old
        exact ⟨other, before, found, .moved before.parent _, Or.inl rfl⟩
      · obtain ⟨before, found, rfl⟩ := Option.map_eq_some_iff.mp old
        exact ⟨other, before, found, .moved (some initproc) before.children, Or.inl rfl⟩
      · exact ⟨other, task', old, .refl, Or.inl rfl⟩
  | @fork id trapCxPpn task memorySet kernelSpace mm₁ mm₂ current found =>
    rcases setTask_cases looked with ⟨rfl, rfl⟩ | ⟨_, old⟩
    · exact ⟨other, task, found, .moved task.parent _, Or.inl rfl⟩
    · rcases setTask_cases old with ⟨rfl, rfl⟩ | ⟨_, old⟩
      · exact ⟨id, task, found, .forked id _ trapCxPpn memorySet (running current found), Or.inr ⟨current, rfl, rfl⟩⟩
      · exact ⟨other, task', old, .refl, Or.inl rfl⟩
  | @reap id child _ task exited _ _ _ _ _ found =>
    rcases set_eq_some.mp looked with ⟨_, none⟩ | ⟨_, old⟩
    · cases none
    · exact single found (.moved task.parent _) old

/-! ### Invariants of tasks -/

/-- Root has every capability, and everybody else none. -/
def Credentials.Confined (self : Credentials) : Prop :=
  self.uid = 0 ∧ self.capabilities = .all ∨ self.uid ≠ 0 ∧ self.capabilities = .empty

theorem setUid_ok {self credentials : Credentials} {uid : Nat} (run : self.setUid uid = .ok credentials) :
    self.uid = 0 ∧ (uid ≠ 0 ∧ credentials = ⟨uid, .empty⟩ ∨ uid = 0 ∧ credentials = self) := by
  unfold Credentials.setUid at run
  split_ifs at run with notRoot large nonzero
  · have root : self.uid = 0 := by
      simpa [Credentials.isRoot, rootUid] using notRoot
    exact ⟨root, Or.inl ⟨nonzero, (Except.ok.inj run).symm⟩⟩
  · have root : self.uid = 0 := by
      simpa [Credentials.isRoot, rootUid] using notRoot
    obtain rfl := not_not.mp nonzero
    obtain rfl := Except.ok.inj run
    exact ⟨root, Or.inr ⟨rfl, by rw [← root]⟩⟩

theorem Credentials.Confined.setUid {self credentials : Credentials} {uid : Nat} (confined : self.Confined)
    (run : self.setUid uid = .ok credentials) : credentials.Confined := by
  obtain ⟨_, ⟨nonzero, rfl⟩ | ⟨_, rfl⟩⟩ := setUid_ok run
  · exact Or.inr ⟨nonzero, rfl⟩
  · exact confined

/-- What holds of every task by itself. -/
structure TaskSound (k : Kernel P) (task : TaskControlBlock) : Prop where
  accounted : task.isZombie = false → Accounted task.fdTable task.security.quota
  files : k.KnownFiles task.fdTable
  point : k.KnownPoint task.resume
  signals : task.SignalsFormed
  confined : task.security.credentials.Confined
  backup : task.BackupFormed

theorem knownFiles_nil (k : Kernel P) : k.KnownFiles [] := by
  intro fd file looked
  rw [slot_eq_none (Nat.zero_le fd)] at looked
  cases looked

theorem Successor.sound {k : Kernel P} {task task' : TaskControlBlock} (next : Successor k task task')
    (sound : TaskSound k task) : TaskSound k task' := by
  obtain ⟨accounted, files, point, ⟨actions, handling⟩, confined, backup⟩ := sound
  cases next with
  | refl => exact ⟨accounted, files, point, ⟨actions, handling⟩, confined, backup⟩
  | moved => exact ⟨accounted, files, point, ⟨actions, handling⟩, confined, backup⟩
  | scheduled _ _ _ known alive => exact ⟨fun _ => accounted alive, files, known, ⟨actions, handling⟩, confined, backup⟩
  | signals _ _ _ _ _ _ formed saved => exact ⟨accounted, files, point, formed ⟨actions, handling⟩, confined, saved backup⟩
  | credentials changed => exact ⟨accounted, files, point, ⟨actions, handling⟩, confined.setUid changed, backup⟩
  | descriptors _ _ accounts known alive =>
    exact ⟨fun _ => accounts (accounted alive), known files, point, ⟨actions, handling⟩, confined, backup⟩
  | exited => exact ⟨nofun, knownFiles_nil k, trivial, ⟨actions, handling⟩, confined, backup⟩
  | forked _ _ _ _ alive => exact ⟨fun _ => accounted alive, files, trivial, ⟨actions, Or.inl rfl⟩, confined, nofun⟩
  | execed => exact ⟨accounted, files, point, ⟨actions, handling⟩, confined, backup⟩

/-! ### Objects stay known -/

theorem Act.inodes_kept {k k' : Kernel P} (act : Act k k') {inner : Nat} (known : k.inodes inner ≠ none) :
    k'.inodes inner ≠ none := by
  cases act with
  | files _ _ _ kept => exact kept inner known
  | _ => exact known

theorem Act.pipes_kept {k k' : Kernel P} (act : Act k k') {pipe : ResourceId} (known : k.pipes pipe ≠ none) :
    k'.pipes pipe ≠ none := by
  cases act with
  | take => exact set_some_ne_none _ _ known
  | store => exact set_some_ne_none _ _ known
  | makePipe => exact set_some_ne_none _ _ known
  | _ => exact known

theorem Act.known {k k' : Kernel P} (act : Act k k') {file : File} (known : k.Known file) : k'.Known file := by
  cases file with
  | stdin | stdout => trivial
  | inode => exact act.inodes_kept known
  | pipe => exact act.pipes_kept known

theorem TaskSound.mono {k k' : Kernel P} {task : TaskControlBlock} (act : Act k k') (sound : TaskSound k task) :
    TaskSound k' task := by
  obtain ⟨accounted, files, point, signals, confined, backup⟩ := sound
  refine ⟨accounted, fun looked => act.known (files looked), ?_, signals, confined, backup⟩
  generalize task.resume = suspendedAt at point
  cases suspendedAt with
  | pipeRead call => exact act.pipes_kept point
  | pipeWrite call => exact act.pipes_kept point
  | _ => trivial

/-! ### Pipes -/

/-- Every pipe has a well-formed ring that knows its write end, and ids in use are below the next one. -/
structure PipesSound (k : Kernel P) : Prop where
  rings : ∀ {pipe ring}, k.pipes pipe = some ring → ring.WellFormed ∧ ring.writeEnd = some pipe
  fresh : ∀ {pipe}, k.nextPipeId ≤ pipe → k.pipes pipe = none

theorem PipesSound.set {k k' : Kernel P} {pipe : ResourceId} {ring after : PipeRingBuffer} (sound : PipesSound k)
    (known : k.pipes pipe = some ring) (formed : after.WellFormed) (same : after.writeEnd = ring.writeEnd)
    (pipes : k'.pipes = Kernel.set k.pipes pipe (some after)) (next : k'.nextPipeId = k.nextPipeId) : PipesSound k' := by
  refine ⟨?_, ?_⟩
  · intro other found looked
    rw [pipes] at looked
    rcases set_eq_some.mp looked with ⟨rfl, value⟩ | ⟨_, old⟩
    · obtain rfl := Option.some.inj value
      exact ⟨formed, same.trans (sound.rings known).2⟩
    · exact sound.rings old
  · intro other large
    rw [next] at large
    rw [pipes, set_other, sound.fresh large]
    rintro rfl
    rw [sound.fresh large] at known
    cases known

theorem Act.pipesSound {k k' : Kernel P} (act : Act k k') (sound : PipesSound k) : PipesSound k' := by
  cases act with
  | take ref known data run =>
    obtain ⟨byte, after, read, formed, same, _⟩ := (sound.rings known).1.readByte data
    obtain ⟨rfl, rfl⟩ := Prod.mk.inj (Except.ok.inj (run.symm.trans read))
    exact sound.set known formed same rfl rfl
  | store ref known room run =>
    obtain ⟨after, written, formed, same, _⟩ := (sound.rings known).1.writeByte room (k.mm.mem ref)
    obtain rfl := Except.ok.inj (run.symm.trans written)
    exact sound.set known formed same rfl rfl
  | makePipe room =>
    refine ⟨?_, ?_⟩
    · intro other found looked
      rcases set_eq_some.mp looked with ⟨rfl, value⟩ | ⟨_, old⟩
      · obtain rfl := Option.some.inj value
        exact ⟨PipeRingBuffer.new_wellFormed k.nextPipeId, rfl⟩
      · exact sound.rings old
    · intro other large
      have above : k.nextPipeId < other := large
      exact (set_other (Nat.ne_of_gt above)).trans (sound.fresh (Nat.le_of_lt above))
  | _ => exact ⟨sound.rings, sound.fresh⟩

/-! ### Suspended calls -/

/-- Every task can go on where it was suspended. -/
structure Flights (k : Kernel P) : Prop where
  point : ∀ {id task}, k.tasks id = some task → Flight k id task.resume

/-- What the running task does is not noticed by those that are suspended. -/
theorem Flights.step {k k' : Kernel P} (flights : Flights k) (isolated : Isolated k)
    (tasks : ∀ {id task'}, k'.tasks id = some task' → task'.resume = .user ∨ ∃ task, k.tasks id = some task ∧
      task'.resume = task.resume ∧ ∀ x, x / 4096 ∈ task.memorySet.frames → k'.mm.mem x = k.mm.mem x)
    (trace : k'.trace = k.trace ∨ ∃ observation, k'.trace = k.trace ++ [(k.current, observation)]) : Flights k' := by
  refine ⟨fun {id task'} looked => ?_⟩
  rcases tasks looked with user | ⟨task, found, same, memory⟩
  · rw [user]
    trivial
  rw [same]
  by_cases running : k.current = some id
  · rw [isolated.running running found]
    trivial
  · refine (flights.point found).keep ?_ (isolated.task found).point fun x inside =>
      memory x (List.mem_append_right _ (userFrames_subset inside))
    rcases trace with silent | ⟨observation, more⟩
    · rw [silent]
    · rw [more]
      exact openCall_other running _ _

theorem Flights.observe {k : Kernel P} (flights : Flights k) (isolated : Isolated k) (observation : Observation) :
    Flights (k.observe observation) :=
  flights.step isolated (fun found => Or.inr ⟨_, found, rfl, fun _ _ => rfl⟩) (Or.inr ⟨observation, rfl⟩)

theorem Flights.setTask {k : Kernel P} {id : Nat} {task changed : TaskControlBlock} (flights : Flights k)
    (isolated : Isolated k) (found : k.tasks id = some task) (resume : changed.resume = task.resume) :
    Flights (k.setTask id changed) := by
  refine flights.step isolated (fun looked => Or.inr ?_) (Or.inl rfl)
  rcases setTask_cases looked with ⟨rfl, rfl⟩ | ⟨_, old⟩
  · exact ⟨task, found, resume, fun _ _ => rfl⟩
  · exact ⟨_, old, rfl, fun _ _ => rfl⟩

theorem Act.flights {k k' : Kernel P} (act : Act k k') (formed : k.table.WellFormed) (isolated : Isolated k)
    (flights : Flights k) : Flights k' := by
  -- a write to the frames of one task
  have written : ∀ {id : Nat} {task : TaskControlBlock} {mem : PhysMem}, k.tasks id = some task → task.resume = .user →
      (∀ x, x / 4096 ∉ task.memorySet.dataFrames → mem x = k.mm.mem x) → ∀ {other task'}, k.tasks other = some task' →
      task'.resume = .user ∨ ∃ before, k.tasks other = some before ∧ task'.resume = before.resume ∧
        ∀ x, x / 4096 ∈ before.memorySet.frames → mem x = k.mm.mem x := by
    intro id task mem found own inside other task' looked
    by_cases same : other = id
    · subst same
      obtain rfl := Option.some.inj (found.symm.trans looked)
      exact Or.inl own
    · refine Or.inr ⟨task', looked, rfl, fun x theirs => inside x fun mine => ?_⟩
      rw [← owned_some looked] at theirs
      refine isolated.separate.apart _ (some id) (fun clash => same (Option.some.inj clash)) _ theirs ?_
      rw [owned_some found]
      exact List.mem_append_right _ mine
  cases act with
  | environment | files | makePipe =>
    exact flights.step isolated (fun found => Or.inr ⟨_, found, rfl, fun _ _ => rfl⟩) (Or.inl rfl)
  | began | ended | store =>
    exact flights.step isolated (fun found => Or.inr ⟨_, found, rfl, fun _ _ => rfl⟩) (Or.inr ⟨_, rfl⟩)
  | memory mem found _ inside own => exact flights.step isolated (written found own inside) (Or.inl rfl)
  | take ref _ _ _ current found inside =>
    refine flights.step isolated (written found (isolated.running current found) fun x outside => ?_) (Or.inr ⟨_, rfl⟩)
    apply Memory.store_outside
    have apart : x ≠ ref := fun same => outside (same ▸ userFrames_subset inside)
    rw [List.length_singleton]
    omega
  | signals found => exact flights.setTask isolated found rfl
  | credentials _ found => exact flights.setTask isolated found rfl
  | descriptors _ found => exact flights.setTask isolated found rfl
  | suspend point current found _ inside flight =>
    refine ⟨fun {other task'} looked => ?_⟩
    rcases setTask_cases looked with ⟨rfl, rfl⟩ | ⟨_, old⟩
    · exact flight.keep rfl inside fun _ _ => rfl
    · exact (flights.point old).keep rfl (isolated.task old).point fun _ _ => rfl
  | exit exitCode current found _ run =>
    have kept := (isolated.exit formed exitCode current found run).2
    refine flights.step isolated (fun looked => ?_) (Or.inr ⟨_, rfl⟩)
    rcases setTask_cases looked with ⟨_, rfl⟩ | ⟨different, old⟩
    · exact Or.inl rfl
    · right
      unfold adopted at old
      split_ifs at old
      · obtain ⟨before, found, rfl⟩ := Option.map_eq_some_iff.mp old
        exact ⟨before, found, rfl, kept _ _ different found⟩
      · obtain ⟨before, found, rfl⟩ := Option.map_eq_some_iff.mp old
        exact ⟨before, found, rfl, kept _ _ different found⟩
      · exact ⟨_, old, rfl, kept _ _ different old⟩
  | fork current found copied trapCx stack =>
    have kept := (isolated.fork formed current found copied trapCx stack).2
    have present : ∀ {other task'}, k.tasks other = some task' → other ≠ k.nextTask := fun looked =>
      Nat.ne_of_lt (formed.small (table_place looked))
    refine flights.step isolated (fun looked => ?_) (Or.inr ⟨_, rfl⟩)
    rcases setTask_cases looked with ⟨rfl, rfl⟩ | ⟨_, old⟩
    · exact Or.inr ⟨_, found, rfl, kept _ _ (present found) found⟩
    · rcases setTask_cases old with ⟨_, rfl⟩ | ⟨different, old⟩
      · exact Or.inl rfl
      · exact Or.inr ⟨_, old, rfl, kept _ _ different old⟩
  | exec current found loaded trapCx pushed dropped =>
    have kept := (isolated.exec formed current found loaded trapCx pushed dropped).2
    refine flights.step isolated (fun looked => ?_) (Or.inl rfl)
    have user := isolated.running current found
    rcases setTask_cases looked with ⟨_, rfl⟩ | ⟨different, old⟩
    · exact Or.inl user
    · exact Or.inr ⟨_, old, rfl, kept _ _ different old⟩
  | @reap id child _ task exited pidAllocator kernelSpace _ mm₂ current found member exitedFound _ _ _ stack dropped =>
    have kept := (@Isolated.reap P k id task isolated formed child _ exited pidAllocator kernelSpace _ mm₂ found member exitedFound stack dropped).2
    refine flights.step isolated (fun looked => ?_) (Or.inr ⟨_, rfl⟩)
    have user := isolated.running current found
    rcases set_eq_some.mp looked with ⟨_, none⟩ | ⟨still, looked⟩
    · cases none
    · rcases setTask_cases looked with ⟨rfl, rfl⟩ | ⟨_, old⟩
      · exact Or.inl user
      · exact Or.inr ⟨_, old, rfl, kept _ _ still old⟩

/-! ### All invariants together -/

structure Sound (k : Kernel P) : Prop where
  table : k.table.WellFormed
  task : ∀ {id task}, k.tasks id = some task → TaskSound k task
  pipes : PipesSound k
  isolated : Isolated k
  flights : Flights k

theorem Act.sound {k k' : Kernel P} (act : Act k k') (sound : Sound k) : Sound k' where
  table := act.table_wellFormed sound.table
  task looked := by
    obtain ⟨id, task, found, next, _⟩ := act.successor sound.table looked
    exact (next.sound (sound.task found)).mono act
  pipes := act.pipesSound sound.pipes
  isolated := act.isolated sound.table sound.isolated
  flights := act.flights sound.table sound.isolated sound.flights

theorem Acts.sound {k k' : Kernel P} (acts : Acts k k') (sound : Sound k) : Sound k' :=
  acts.keeps (fun _ _ act => act.sound) sound

theorem Marked.sound {k k' : Kernel P} (marked : Marked k k') (sound : Sound k) : Sound k' := by
  obtain ⟨found⟩ := marked
  rename_i id task
  have table := setTask_table found (show TaskControlBlock.place { task with killed := true } = task.place from rfl)
  refine ⟨table ▸ sound.table, ?_, ⟨sound.pipes.rings, sound.pipes.fresh⟩, sound.isolated.setTask found rfl rfl rfl rfl,
    sound.flights.setTask sound.isolated found rfl⟩
  intro other task' looked
  rcases setTask_cases looked with ⟨rfl, rfl⟩ | ⟨_, old⟩
  · obtain ⟨accounted, files, point, ⟨actions, handling⟩, confined, backup⟩ := sound.task found
    exact ⟨accounted, files, point, ⟨actions, handling⟩, confined, backup⟩
  · obtain ⟨accounted, files, point, signals, confined, backup⟩ := sound.task old
    exact ⟨accounted, files, point, signals, confined, backup⟩

/-- An invariant of every act and of marking a task is one of the end of a trap. -/
theorem TailActs.keeps {I : Kernel P → Prop} (acts : ∀ k k', Act k k' → Sound k → I k → I k')
    (marks : ∀ k k', Marked k k' → I k → I k') {k k' : Kernel P} (tail : TailActs k k') (sound : Sound k) (holds : I k) :
    Sound k' ∧ I k' := by
  induction tail with
  | refl => exact ⟨sound, holds⟩
  | tail _ next ih =>
    obtain ⟨sound, holds⟩ := ih
    rcases next with act | marked
    · exact ⟨act.sound sound, acts _ _ act sound holds⟩
    · exact ⟨marked.sound sound, marks _ _ marked holds⟩

theorem TailActs.sound {k k' : Kernel P} (tail : TailActs k k') (sound : Sound k) : Sound k' :=
  (tail.keeps (I := fun _ => True) (fun _ _ _ _ _ => trivial) (fun _ _ _ _ => trivial) sound trivial).1

theorem Resumed.sound {k k' : Kernel P} (resumed : Resumed k k') (sound : Sound k) : Sound k' := by
  have table := resumed.table_wellFormed sound.table
  have isolated := resumed.isolated sound.table sound.isolated
  obtain ⟨idle, queue, found⟩ := resumed
  refine ⟨table, ?_, ⟨sound.pipes.rings, sound.pipes.fresh⟩, isolated, ⟨?_⟩⟩
  · intro other task' looked
    have first : k.table.readyQueue = _ := queue
    have alive := sound.table.queue_live (by rw [first]; exact List.mem_cons_self) (table_place found)
    rcases setTask_cases looked with ⟨rfl, rfl⟩ | ⟨_, old⟩
    · have next : Successor k _ _ := .scheduled .running .user nofun trivial alive
      obtain ⟨accounted, files, point, signals, confined, backup⟩ := next.sound (sound.task found)
      exact ⟨accounted, files, point, signals, confined, backup⟩
    · obtain ⟨accounted, files, point, signals, confined, backup⟩ := sound.task old
      exact ⟨accounted, files, point, signals, confined, backup⟩
  · intro other task' looked
    rcases setTask_cases looked with ⟨_, rfl⟩ | ⟨_, old⟩
    · trivial
    · exact (sound.flights.point old).keep rfl (sound.isolated.task old).point fun _ _ => rfl

end

end SecureIpc
