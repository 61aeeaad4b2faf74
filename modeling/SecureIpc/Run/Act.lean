import Mathlib.Logic.Relation
import SecureIpc.Run.FileInvariant
import SecureIpc.Run.History
import SecureIpc.Task.Arguments
import SecureIpc.Task.Descriptors

/-!
What the kernel can do to its state, as net effects: every program of the kernel is a sequence of
these acts, so an invariant is proved act by act and not program by program.
-/

namespace SecureIpc
open Lib

section
variable {P : Platform}

/-! ### Looking up after an update -/

namespace Kernel

@[simp] theorem set_same {α : Type} (f : Nat → Option α) (key : Nat) (value : Option α) : set f key value key = value := by
  simp [set]

theorem set_other {α : Type} {f : Nat → Option α} {key other : Nat} {value : Option α} (different : other ≠ key) :
    set f key value other = f other := by
  simp [set, different]

theorem set_eq_some {α : Type} {f : Nat → Option α} {key other : Nat} {value : Option α} {a : α} :
    set f key value other = some a ↔ other = key ∧ value = some a ∨ other ≠ key ∧ f other = some a := by
  by_cases same : other = key
  · subst same
    simp
  · simp [same, set_other same]

theorem set_self {α : Type} {f : Nat → Option α} {key : Nat} {value : Option α} (found : f key = value) :
    set f key value = f := by
  funext other
  by_cases same : other = key
  · subst same
    rw [set_same, found]
  · exact set_other same

theorem set_some_same {α : Type} (f : Nat → Option α) (key : Nat) (a : α) : set f key (some a) key ≠ none := by
  rw [set_same]
  exact Option.some_ne_none a

theorem set_some_ne_none {α : Type} {f : Nat → Option α} {other : Nat} (key : Nat) (a : α) (known : f other ≠ none) :
    set f key (some a) other ≠ none := by
  by_cases same : other = key
  · subst same
    exact set_some_same f other a
  · rwa [set_other same]

theorem set_set {α : Type} (f : Nat → Option α) (key : Nat) (first second : Option α) :
    set (set f key first) key second = set f key second := by
  funext other
  by_cases same : other = key
  · subst same
    rw [set_same, set_same]
  · rw [set_other same, set_other same, set_other same]

section
variable (self : Kernel P) (id : Nat) (task : TaskControlBlock) (mem : PhysMem) (observation : Observation)

@[simp] theorem setTask_same : (self.setTask id task).tasks id = some task := set_same _ _ _

@[simp] theorem setTask_current : (self.setTask id task).current = self.current := rfl

@[simp] theorem setMem_tasks : (self.setMem mem).tasks = self.tasks := rfl

@[simp] theorem setMem_current : (self.setMem mem).current = self.current := rfl

@[simp] theorem observe_tasks : (self.observe observation).tasks = self.tasks := rfl

@[simp] theorem observe_current : (self.observe observation).current = self.current := rfl

end

end Kernel

theorem setTask_cases {tasks : Nat → Option TaskControlBlock} {id other : Nat} {task task' : TaskControlBlock}
    (looked : Kernel.set tasks id (some task) other = some task') :
    other = id ∧ task' = task ∨ other ≠ id ∧ tasks other = some task' := by
  rcases Kernel.set_eq_some.mp looked with ⟨same, value⟩ | old
  · exact Or.inl ⟨same, (Option.some.inj value).symm⟩
  · exact Or.inr old

/-! ### Net effects -/

namespace TaskControlBlock

def exited (self : TaskControlBlock) (memorySet : MemorySet) (exitCode : Int) : TaskControlBlock :=
  { self with taskStatus := .zombie, exitCode, children := [], memorySet, fdTable := [], resume := .user }

def forked (self : TaskControlBlock) (id pid trapCxPpn : Nat) (memorySet : MemorySet) : TaskControlBlock :=
  { pid, trapCxPpn, resume := .user, taskStatus := .ready, memorySet, parent := some id, children := []
    exitCode := 0, fdTable := self.fdTable, security := .forkFrom self.security
    signals := 0, signalMask := self.signalMask, handlingSig := -1, signalActions := self.signalActions
    killed := false, frozen := false, trapCtxBackup := none }

/-- The signal state of a task, which `sys_kill`, delivery and the signal system calls change. -/
def withSignals (self : TaskControlBlock) (signals signalMask : SignalFlags) (handlingSig : Int)
    (signalActions : List SignalAction) (killed frozen : Bool) (trapCtxBackup : Option TrapContext) : TaskControlBlock :=
  { self with signals, signalMask, handlingSig, signalActions, killed, frozen, trapCtxBackup }

/-- The table has an action for each signal, and the signal being handled is one of them. -/
structure SignalsFormed (task : TaskControlBlock) : Prop where
  actions : task.signalActions.length = maxSig + 1
  handling : task.handlingSig = -1 ∨ 0 ≤ task.handlingSig ∧ task.handlingSig ≤ maxSig

def BackupFormed (self : TaskControlBlock) : Prop :=
  ∀ context, self.trapCtxBackup = some context → context.x.length = 32

end TaskControlBlock

def Kernel.Known (self : Kernel P) : File → Prop
  | .inode _ _ inner => self.inodes inner ≠ none
  | .pipe endpoint => self.pipes endpoint.object.id ≠ none
  | _ => True

/-- Every open file of a descriptor table is a known one. -/
def Kernel.KnownFiles (self : Kernel P) (fdTable : List (Option File)) : Prop :=
  ∀ {fd file}, slot fdTable fd = some file → self.Known file

def Kernel.KnownPoint (self : Kernel P) : KernelPoint → Prop
  | .pipeRead call | .pipeWrite call => self.pipes call.object.id ≠ none
  | _ => True

/-- The pipe is empty and nobody holds its write end. -/
def Kernel.Drained (self : Kernel P) (pipe : ResourceId) : Prop :=
  self.holdsWriteEnd pipe = false ∧ ∃ ring, self.pipes pipe = some ring ∧ ring.availableRead = 0

/-- The first page of a kernel stack; irreducible, since unfolding it computes with addresses. -/
@[irreducible] def kernelStackPage (pid : Nat) : Except Fault Nat :=
  VirtAddr.toVpn (VirtAddr.ofUsize (kernelStackPosition pid).1)

namespace Kernel

def suspended (self : Kernel P) (id : Nat) (task : TaskControlBlock) (point : KernelPoint) : Kernel P :=
  { self with
    current := none
    tasks := set self.tasks id (some { task with taskStatus := .ready, resume := point })
    pid2tcb := set self.pid2tcb task.pid (some id)
    readyQueue := self.readyQueue ++ [id] }

def resumed (self : Kernel P) (id : Nat) (rest : List Nat) (task : TaskControlBlock) : Kernel P :=
  { self with
    current := some id
    tasks := set self.tasks id (some { task with taskStatus := .running, resume := .user })
    readyQueue := rest }

/-- The tasks after `INITPROC` has adopted `children`. -/
def adopted (tasks : Nat → Option TaskControlBlock) (children : List Nat) : Nat → Option TaskControlBlock := fun other =>
  if other = initproc then (tasks other).map fun task => { task with children := task.children ++ children }
  else if other ∈ children then (tasks other).map fun task => { task with parent := some initproc }
  else tasks other

def exited (self : Kernel P) (id : Nat) (task : TaskControlBlock) (memorySet : MemorySet) (mm : Mm) (exitCode : Int) :
    Kernel P :=
  { self with
    mm
    current := none
    pid2tcb := set self.pid2tcb task.pid none
    tasks := set (adopted self.tasks task.children) id (some (task.exited memorySet exitCode)) }

def forked (self : Kernel P) (id : Nat) (task : TaskControlBlock) (trapCxPpn : Nat) (memorySet kernelSpace : MemorySet)
    (mm : Mm) : Kernel P :=
  { self with
    mm, kernelSpace
    pidAllocator := self.pidAllocator.alloc.2
    tasks := set (set self.tasks self.nextTask (some (task.forked id self.pidAllocator.alloc.1 trapCxPpn memorySet))) id
      (some { task with children := task.children ++ [self.nextTask] })
    nextTask := self.nextTask + 1
    pid2tcb := set self.pid2tcb self.pidAllocator.alloc.1 (some self.nextTask)
    readyQueue := self.readyQueue ++ [self.nextTask] }

def reaped (self : Kernel P) (id : Nat) (task : TaskControlBlock) (child : Nat) (pidAllocator : PidAllocator)
    (kernelSpace : MemorySet) (mm : Mm) : Kernel P :=
  { self with
    mm, kernelSpace, pidAllocator
    tasks := set (set self.tasks id (some { task with children := task.children.erase child })) child none }

end Kernel

/-- One net effect of the running task or of the environment on the state of the kernel. -/
inductive Act : Kernel P → Kernel P → Prop where
  | environment {k : Kernel P} (now : Nat) (consoleInput : List Nat) : Act k { k with now, consoleInput }
  | files {k : Kernel P} (inodes : Nat → Option (OSInodeInner P)) (nextInode : Nat) (disk : P.fs.State)
      (kept : ∀ inner, k.inodes inner ≠ none → inodes inner ≠ none)
      (onward : ∀ inv : FsInvariant P.fs, inv.Keeps k.inodes k.disk → inv.Keeps inodes disk) : Act k { k with inodes, nextInode, disk }
  | memory {k : Kernel P} {id : Nat} {task : TaskControlBlock} (mem : PhysMem) (found : k.tasks id = some task)
      (alive : task.isZombie = false) (inside : ∀ x, x / 4096 ∉ task.memorySet.dataFrames → mem x = k.mm.mem x)
      (own : task.resume = .user) : Act k (k.setMem mem)
  | began {k : Kernel P} (write : Bool) (call : PipeCall) :
      Act k (k.observe (.began write call.object.id (call.bytes k.mm.mem)))
  | ended {k : Kernel P} {id : Nat} {write : Bool} {call : PipeCall} (current : k.current = some id)
      (carries : Carries k id write call)
      (finished : call.done = call.want ∨ write = false ∧ k.Drained call.object.id) :
      Act k (k.observe (.ended write call.object.id (call.bytes k.mm.mem) call.done (k.holdsWriteEnd call.object.id)))
  | take {k : Kernel P} {id : Nat} {task : TaskControlBlock} {pipe : ResourceId} {ring after : PipeRingBuffer}
      {byte : UInt8} (ref : Nat) (known : k.pipes pipe = some ring) (data : ring.availableRead ≠ 0)
      (run : ring.readByte = .ok (byte, after)) (current : k.current = some id) (found : k.tasks id = some task)
      (inside : ref / 4096 ∈ task.memorySet.userFrames) :
      Act k (((k.setPipe pipe after).setMem (k.mm.mem.store ref [byte])).observe (.took pipe byte ring.status))
  | store {k : Kernel P} {pipe : ResourceId} {ring after : PipeRingBuffer} (ref : Nat)
      (known : k.pipes pipe = some ring) (room : ring.availableWrite ≠ 0)
      (run : ring.writeByte (k.mm.mem ref) = .ok after) :
      Act k ((k.setPipe pipe after).observe (.stored pipe (k.mm.mem ref) ring.status))
  | makePipe {k : Kernel P} (room : k.nextPipeId + 1 < 2 ^ 64) :
      Act k ({ k with nextPipeId := k.nextPipeId + 1 }.setPipe k.nextPipeId
        (PipeRingBuffer.new.setWriteEnd k.nextPipeId))
  | signals {k : Kernel P} {id : Nat} {task : TaskControlBlock} (found : k.tasks id = some task)
      (signals signalMask : SignalFlags) (handlingSig : Int) (signalActions : List SignalAction)
      (frozen : Bool) (trapCtxBackup : Option TrapContext)
      (formed : task.SignalsFormed →
        (task.withSignals signals signalMask handlingSig signalActions task.killed frozen trapCtxBackup).SignalsFormed)
      (backup : task.BackupFormed → ∀ context, trapCtxBackup = some context → context.x.length = 32) :
      Act k (k.setTask id
        (task.withSignals signals signalMask handlingSig signalActions task.killed frozen trapCtxBackup))
  | credentials {k : Kernel P} {id uid : Nat} {task : TaskControlBlock} {credentials : Credentials}
      (current : k.current = some id) (found : k.tasks id = some task)
      (changed : task.security.credentials.setUid uid = .ok credentials) :
      Act k (k.setTask id { task with security := { task.security with credentials } })
  | descriptors {k : Kernel P} {id : Nat} {task : TaskControlBlock} (current : k.current = some id)
      (found : k.tasks id = some task) (fdTable : List (Option File)) (quota : QuotaState)
      (accounts : Accounted task.fdTable task.security.quota → Accounted fdTable quota)
      (known : k.KnownFiles task.fdTable → k.KnownFiles fdTable) :
      Act k (k.setTask id { task with fdTable, security := { task.security with quota } })
  | suspend {k : Kernel P} {id : Nat} {task : TaskControlBlock} (point : KernelPoint)
      (current : k.current = some id) (found : k.tasks id = some task) (known : k.KnownPoint point)
      (inside : task.memorySet.HoldsPoint point) (flight : Flight k id point) : Act k (k.suspended id task point)
  | exit {k : Kernel P} {id : Nat} {task : TaskControlBlock} {memorySet : MemorySet} {mm : Mm} (exitCode : Int)
      (current : k.current = some id) (found : k.tasks id = some task) (other : task.pid ≠ idlePid)
      (run : task.memorySet.recycleDataPages k.mm = .ok (memorySet, mm)) :
      Act k ((k.observe (.exited exitCode)).exited id task memorySet mm exitCode)
  | fork {k : Kernel P} {id trapCxPpn : Nat} {task : TaskControlBlock} {memorySet kernelSpace : MemorySet} {mm₁ mm₂ : Mm}
      (current : k.current = some id) (found : k.tasks id = some task)
      (copied : MemorySet.fromExistedUser P.layout task.memorySet k.mm = .ok (memorySet, mm₁))
      (trapCx : trapCxPpnOf memorySet { k with mm := mm₁ } = .ok (trapCxPpn, { k with mm := mm₁ }))
      (stack : k.kernelSpace.insertFramedArea P.layout
        (VirtAddr.ofUsize (kernelStackPosition k.pidAllocator.alloc.1).1)
        (VirtAddr.ofUsize (kernelStackPosition k.pidAllocator.alloc.1).2) (PTEFlags.R ||| PTEFlags.W) mm₁ =
          .ok (kernelSpace, mm₂)) :
      Act k ((k.forked id task trapCxPpn memorySet kernelSpace mm₂).observe (.forked k.nextTask))
  | exec {k : Kernel P} {id userSp entryPoint trapCxPpn argvBase sp : Nat} {task : TaskControlBlock}
      {elfData : List UInt8} {args : List Utf8} {memorySet : MemorySet} {mm₁ mm₂ mm₃ : Mm}
      (current : k.current = some id) (found : k.tasks id = some task)
      (loaded : MemorySet.fromElf P.layout P.parseElf elfData k.mm = .ok ((memorySet, userSp, entryPoint), mm₁))
      (trapCx : trapCxPpnOf memorySet { k with mm := mm₁ } = .ok (trapCxPpn, { k with mm := mm₁ }))
      (pushed : pushArguments memorySet.token userSp args mm₁ = .ok ((argvBase, sp), mm₂))
      (dropped : task.memorySet.drop mm₂ = .ok ((), mm₃)) :
      Act k ({ k with mm := mm₃ }.setTask id { task with memorySet, trapCxPpn })
  | reap {k : Kernel P} {id child vpn : Nat} {task exited : TaskControlBlock} {pidAllocator : PidAllocator}
      {kernelSpace : MemorySet} {mm₁ mm₂ : Mm} (current : k.current = some id) (found : k.tasks id = some task)
      (member : child ∈ task.children) (exitedFound : k.tasks child = some exited) (zombie : exited.isZombie)
      (freed : k.pidAllocator.dealloc exited.pid = .ok pidAllocator)
      (bottom : kernelStackPage exited.pid = .ok vpn)
      (stack : k.kernelSpace.removeAreaWithStartVpn vpn k.mm = .ok (kernelSpace, mm₁))
      (dropped : exited.memorySet.drop mm₁ = .ok ((), mm₂)) :
      Act k ((k.reaped id task child pidAllocator kernelSpace mm₂).observe (.reaped child exited.exitCode))

/-- The scheduler starts the first task of the ready queue. -/
inductive Resumed : Kernel P → Kernel P → Prop where
  | intro {k : Kernel P} {id : Nat} {rest : List Nat} {task : TaskControlBlock} (idle : k.current = none)
      (queue : k.readyQueue = id :: rest) (found : k.tasks id = some task) : Resumed k (k.resumed id rest task)

/-- A pass over the pending signals marks the running task as killed; nothing else does. -/
inductive Marked : Kernel P → Kernel P → Prop where
  | intro {k : Kernel P} {id : Nat} {task : TaskControlBlock} (found : k.tasks id = some task) :
      Marked k (k.setTask id { task with killed := true })

abbrev Acts : Kernel P → Kernel P → Prop := Relation.ReflTransGen Act

/-- An invariant of every act is one of every sequence of acts. -/
theorem Acts.keeps {I : Kernel P → Prop} (step : ∀ k k', Act k k' → I k → I k') {k k' : Kernel P} (acts : Acts k k')
    (holds : I k) : I k' := by
  induction acts with
  | refl => exact holds
  | tail _ act ih => exact step _ _ act ih

/-- What happens at the end of a trap: acts, and the running task may be marked. -/
abbrev TailActs : Kernel P → Kernel P → Prop := Relation.ReflTransGen fun k k' => Act k k' ∨ Marked k k'

theorem Acts.toTail {k k' : Kernel P} (acts : Acts k k') : TailActs k k' :=
  Relation.ReflTransGen.mono (fun _ _ act => Or.inl act) _ _ acts

end

end SecureIpc
