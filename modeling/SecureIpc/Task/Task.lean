import SecureIpc.Security.Quota
import SecureIpc.Fs.Pipe
import SecureIpc.Mm.MemorySet
import SecureIpc.Mm.UserAccess
import SecureIpc.Task.Signal

/-!
Trap contexts and task control blocks. A task that is not running is described by the point in the
kernel at which it will continue, in place of the saved registers and the kernel stack.
-/

namespace SecureIpc
open Lib

/-! ### Trap contexts -/

/-- The 37 words at the start of the trap-context page; `x` has 32 entries. -/
structure TrapContext where
  x : List Nat
  sstatus : Nat
  sepc : Nat
  kernelSatp : Nat
  kernelSp : Nat
  trapHandler : Nat
  deriving DecidableEq, Repr

namespace TrapContext

def setSp (self : TrapContext) (sp : Nat) : TrapContext := { self with x := self.x.set 2 sp }

/-- `sstatus` is the value read from the register, with the previous privilege set to user. -/
def appInitContext (sstatus entry sp kernelSatp kernelSp trapHandler : Nat) : TrapContext :=
  setSp { x := List.replicate 32 0, sstatus, sepc := entry, kernelSatp, kernelSp, trapHandler } sp

def words (self : TrapContext) : List Nat :=
  self.x ++ [self.sstatus, self.sepc, self.kernelSatp, self.kernelSp, self.trapHandler]

/-- Positions of the fields after the registers. -/
def sstatusWord : Nat := 32
def sepcWord : Nat := 33
def kernelSatpWord : Nat := 34
def kernelSpWord : Nat := 35
def trapHandlerWord : Nat := 36

/-- The address of a word of the trap context in frame `ppn`. -/
def wordAddr (ppn word : Nat) : Nat := PhysAddr.ofPpn ppn + 8 * word

def store (self : TrapContext) (ppn : Nat) (mem : PhysMem) : PhysMem :=
  mem.store (PhysAddr.ofPpn ppn) (self.words.flatMap (toBytes 8))

def load (mem : PhysMem) (ppn : Nat) : TrapContext :=
  { x := (List.range 32).map fun word => mem.readWord (wordAddr ppn word)
    sstatus := mem.readWord (wordAddr ppn sstatusWord)
    sepc := mem.readWord (wordAddr ppn sepcWord)
    kernelSatp := mem.readWord (wordAddr ppn kernelSatpWord)
    kernelSp := mem.readWord (wordAddr ppn kernelSpWord)
    trapHandler := mem.readWord (wordAddr ppn trapHandlerWord) }

/-- `__alltraps`: saves the registers but `x0` and `x4`, then `sstatus` and `sepc`. -/
def save (ppn : Nat) (x : List Nat) (sstatus sepc : Nat) (mem : PhysMem) : PhysMem :=
  let saved := ((List.range 32).filter fun n => n != 0 && n != 4).foldl
    (fun mem n => mem.writeWord (wordAddr ppn n) (x.getD n 0)) mem
  (saved.writeWord (wordAddr ppn sstatusWord) sstatus).writeWord (wordAddr ppn sepcWord) sepc

end TrapContext

/-! ### Suspended system calls -/

/-- A `Pipe::read` or `Pipe::write` at the head of its loop, with the permit `sys_read` or
`sys_write` holds meanwhile. -/
structure PipeCall where
  object : IpcObject
  want : Nat
  done : Nat
  iter : UserBufferIterator
  permit : IpcPermit
  deriving DecidableEq, Repr

inductive KernelPoint where
  /-- `trap_return`. -/
  | user
  /-- In `sys_yield`. -/
  | yielded
  /-- In the timer branch of `trap_handler`. -/
  | preempted
  /-- In the loop of `handle_signals`. -/
  | frozen
  | pipeRead (call : PipeCall)
  | pipeWrite (call : PipeCall)
  | stdinRead (buf : UserBuffer)
  deriving DecidableEq, Repr

def KernelPoint.holdsWriteEnd (id : ResourceId) : KernelPoint → Bool
  | pipeWrite call => call.object.id == id
  | _ => false

/-! ### Task control blocks -/

inductive TaskStatus where
  | ready | running | zombie
  deriving DecidableEq, Repr

structure TaskControlBlock where
  pid : Nat
  trapCxPpn : Nat
  resume : KernelPoint
  taskStatus : TaskStatus
  memorySet : MemorySet
  parent : Option Nat
  children : List Nat
  exitCode : Int
  fdTable : List (Option File)
  security : ProcessSecurityState
  signals : SignalFlags
  signalMask : SignalFlags
  handlingSig : Int
  signalActions : List SignalAction
  killed : Bool
  frozen : Bool
  trapCtxBackup : Option TrapContext
  deriving DecidableEq, Repr

namespace TaskControlBlock

def isZombie (self : TaskControlBlock) : Bool := self.taskStatus == .zombie

def getUserToken (self : TaskControlBlock) : Nat := self.memorySet.token

def file (self : TaskControlBlock) (fd : Nat) : Option File := self.fdTable[fd]?.join

def subject (self : TaskControlBlock) : IpcSubject :=
  ⟨self.pid, self.security.credentials.uid, self.security.credentials.capabilities⟩

def allocFd (self : TaskControlBlock) : TaskControlBlock × Nat :=
  match self.fdTable.findIdx? Option.isNone with
  | some fd => (self, fd)
  | none => ({ self with fdTable := self.fdTable ++ [none] }, self.fdTable.length)

/-- `let fd = inner.alloc_fd(); inner.fd_table[fd] = Some(file);` -/
def installFd (self : TaskControlBlock) (file : File) : Except Fault (TaskControlBlock × Nat) := do
  let (self, fd) := self.allocFd
  let fdTable ← setIndex self.fdTable fd (some file)
  return ({ self with fdTable }, fd)

/-- The part of `sys_open` after the file has been opened. -/
def openFd (self : TaskControlBlock) (file : File) : Except Fault (TaskControlBlock × Int) :=
  match self.security.reserveFileFd with
  | .error error => .ok (self, ipcErrorToRet error)
  | .ok security => do
    let (self, fd) ← { self with security }.installFd file
    return (self, fd)

/-- `sys_close`. -/
def closeFd (self : TaskControlBlock) (fd : Nat) : Except Halt (TaskControlBlock × Int) :=
  match self.file fd with
  | none => .ok (self, -1)
  | some _ => do
    let security ← self.security.releaseFd fd
    return ({ self with fdTable := self.fdTable.set fd none, security }, 0)

/-- `sys_dup`. -/
def dupFd (self : TaskControlBlock) (fd : Nat) : Except Halt (TaskControlBlock × Int) :=
  match self.file fd with
  | none => .ok (self, -1)
  | some file =>
    match self.security.reserveDupFd fd with
    | .error error => .ok (self, ipcErrorToRet error)
    | .ok (security, sourceIsPipe) => do
      let (self, newFd) ← ({ self with security }.installFd file).mapError Halt.fault
      if sourceIsPipe then
        let security ← self.security.registerPipeFd newFd
        return ({ self with security }, newFd)
      else return (self, newFd)

end TaskControlBlock

end SecureIpc
