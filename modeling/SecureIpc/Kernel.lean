import SecureIpc.Task.Task
import SecureIpc.Security.Audit

/-!
The state of the kernel: its global variables, the tasks and the open files. `Kernel` holds
everything but the audit ring, so that a program over it cannot depend on the log; `System` adds
the ring. A trace of observations records what happened; no program reads it.
-/

namespace SecureIpc
open Lib

/-- The interface of `easy-fs`; an operation that panics returns nothing. -/
structure FileSystem where
  State : Type
  Inode : Type
  find : Utf8 → State → Option (Option Inode × State)
  create : Utf8 → State → Option (Option Inode × State)
  clear : Inode → State → Option State
  readAt : Inode → Nat → Nat → State → Option (List UInt8 × State)
  writeAt : Inode → Nat → List UInt8 → State → Option (Nat × State)

structure Platform where
  layout : Layout
  fs : FileSystem
  disk : fs.State
  memory : PhysMem
  parseElf : List UInt8 → Option ElfFile
  trapHandler : Nat
  sstatus : Nat

structure PidAllocator where
  current : Nat
  recycled : List Nat
  deriving DecidableEq, Repr

namespace PidAllocator

def new : PidAllocator := ⟨1, []⟩

def alloc (self : PidAllocator) : Nat × PidAllocator :=
  match self.recycled with
  | pid :: recycled => (pid, { self with recycled })
  | [] => (self.current, { self with current := self.current + 1 })

def dealloc (self : PidAllocator) (pid : Nat) : Except Halt PidAllocator :=
  if self.current ≤ pid ∨ self.recycled.contains pid then .error .pidNotAllocated
  else .ok { self with recycled := pid :: self.recycled }

end PidAllocator

structure OSInodeInner (P : Platform) where
  offset : Nat
  inode : P.fs.Inode

/-- A system call as it enters the kernel: the caller, the arguments and the file behind the first
argument, if that is an open descriptor. -/
structure Entry where
  pid : Nat
  uid : Uid
  syscall : Nat
  args : Nat × Nat × Nat
  target : Option File
  deriving DecidableEq, Repr

inductive Observation where
  | entered (entry : Entry)
  | returned (value : Int)
  /-- `write_byte` on a ring with status `before`. -/
  | stored (pipe : ResourceId) (byte : UInt8) (before : RingBufferStatus)
  /-- `read_byte` on a ring with status `before`. -/
  | took (pipe : ResourceId) (byte : UInt8) (before : RingBufferStatus)
  /-- `Pipe::read` or `Pipe::write` is called with a buffer that holds these bytes. -/
  | began (write : Bool) (pipe : ResourceId) (buffer : List UInt8)
  /-- It returns `count` and leaves these bytes in the buffer; `writers` says whether a write end of
  the pipe is held then. -/
  | ended (write : Bool) (pipe : ResourceId) (buffer : List UInt8) (count : Nat) (writers : Bool)
  /-- `AuditRing::push`. -/
  | recorded (event : AuditEvent)
  | forked (child : Nat)
  | exited (code : Int)
  /-- `sys_waitpid` reports a child with its exit code. -/
  | reaped (child : Nat) (code : Int)
  deriving DecidableEq, Repr

/-- Observations in order, each with the task that was running. -/
abbrev Trace := List (Option Nat × Observation)

structure Kernel (P : Platform) where
  mm : Mm
  kernelSpace : MemorySet
  pidAllocator : PidAllocator
  tasks : Nat → Option TaskControlBlock
  nextTask : Nat
  readyQueue : List Nat
  pid2tcb : Nat → Option Nat
  current : Option Nat
  pipes : ResourceId → Option PipeRingBuffer
  nextPipeId : ResourceId
  inodes : Nat → Option (OSInodeInner P)
  nextInode : Nat
  disk : P.fs.State
  /-- The clock in milliseconds, set by the environment. -/
  now : Nat
  consoleInput : List Nat
  trace : Trace

structure System (P : Platform) where
  kernel : Kernel P
  auditRing : AuditRing

abbrev KernelM (P : Platform) := Program (Kernel P) Halt

abbrev SystemM (P : Platform) := Program (System P) Halt

section
variable {P : Platform}

namespace Kernel

/-- `f` with the value at `key` replaced. -/
def set {α : Type} (f : Nat → Option α) (key : Nat) (value : Option α) : Nat → Option α := fun other =>
  if other = key then value else f other

def setTask (self : Kernel P) (id : Nat) (task : TaskControlBlock) : Kernel P :=
  { self with tasks := set self.tasks id (some task) }

def setMem (self : Kernel P) (mem : PhysMem) : Kernel P := { self with mm := { self.mm with mem } }

def setPipe (self : Kernel P) (id : ResourceId) (ring : PipeRingBuffer) : Kernel P :=
  { self with pipes := set self.pipes id (some ring) }

def observe (self : Kernel P) (observation : Observation) : Kernel P :=
  { self with trace := self.trace ++ [(self.current, observation)] }

/-- Whether some descriptor or suspended `sys_write` holds the write end of the pipe `id`. -/
def holdsWriteEnd (self : Kernel P) (id : ResourceId) : Bool :=
  (List.range self.nextTask).any fun task =>
    match self.tasks task with
    | none => false
    | some task => task.fdTable.any (fun slot => slot.any (File.isWriteEnd id)) || task.resume.holdsWriteEnd id

end Kernel

/-- A computation of the lower layers, whose panics stop the kernel. -/
def fault {α : Type} (x : Except Fault α) : KernelM P α := Program.lift (x.mapError .fault)

/-- A program on physical memory and the frame allocator. -/
def mm {α : Type} (p : MmM α) : KernelM P α := Program.zoom Kernel.mm (fun mm k => { k with mm }) .fault p

/-- A program that does not use the audit ring. -/
def kernel {α : Type} (p : KernelM P α) : SystemM P α :=
  Program.zoom System.kernel (fun kernel s => { s with kernel }) id p

def currentTask : KernelM P Nat := do
  match ← Program.read Kernel.current with
  | none => throw .noCurrentTask
  | some id => return id

def innerOf (id : Nat) : KernelM P TaskControlBlock := do
  match ← Program.read fun k : Kernel P => k.tasks id with
  | none => throw .dangling
  | some task => return task

def putInner (id : Nat) (task : TaskControlBlock) : KernelM P Unit := modify fun k => k.setTask id task

def observe (observation : Observation) : KernelM P Unit := modify fun k => k.observe observation

def currentUserToken : KernelM P Nat := do
  let id ← currentTask
  let task ← innerOf id
  return task.getUserToken

def userMemory : KernelM P PhysMem := Program.read fun k => k.mm.mem

def trapCxWord (id word : Nat) : KernelM P Nat := do
  let task ← innerOf id
  let mem ← userMemory
  return mem.readWord (TrapContext.wordAddr task.trapCxPpn word)

def setTrapCxWord (id word value : Nat) : KernelM P Unit := do
  let task ← innerOf id
  modify fun k => k.setMem (k.mm.mem.writeWord (TrapContext.wordAddr task.trapCxPpn word) value)

end

end SecureIpc
