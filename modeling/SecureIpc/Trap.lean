import SecureIpc.Syscall.Fs
import SecureIpc.Syscall.Process
import SecureIpc.Syscall.Security

/-!
The system-call table, trap handling, and whole runs. Between two steps either a task is running in
user mode or the processor is idle; a step is one trap or one store of the running program, or one
round of the scheduler, and lasts until the next return to user mode or to the idle loop.
-/

namespace SecureIpc
open Lib

section
variable {P : Platform}

/-- A system call that always returns. -/
def returning (p : KernelM P Int) : SystemM P (Option Int) := do return some (← kernel p)

/-- `syscall`: the value returned, or nothing when the caller was suspended or has exited. -/
def syscall (syscallId : Nat) (args : Nat × Nat × Nat) : SystemM P (Option Int) :=
  let (a0, a1, a2) := args
  match syscallId with
  | 24 => returning (sysDup a0)
  | 56 => returning (sysOpen a0 a1)
  | 57 => returning (sysClose a0)
  | 59 => do return some (← sysPipe a0)
  | 63 => sysRead a0 a1 a2
  | 64 => sysWrite a0 a1 a2
  | 93 => do
    kernel (exitCurrentAndRunNext (i32OfWord a0))
    return none
  | 124 => do
    kernel (suspendCurrentAndRunNext .yielded)
    return none
  | 129 => do return some (← sysKill a0 (i32OfWord a1))
  | 134 => returning (sysSigaction (i32OfWord a0) a1 a2)
  | 135 => returning (sysSigprocmask a0)
  | 139 => returning sysSigreturn
  | 169 => returning sysGetTime
  | 172 => returning sysGetpid
  | 220 => returning sysFork
  | 221 => returning (sysExec a0 a1)
  | 260 => returning (sysWaitpid (intOfWord a0) a1)
  | 600 => returning sysGetuid
  | 601 => returning (sysSetuid a0)
  | 602 => do return some (← sysAuditRead a0 a1 a2)
  | 603 => do return some (← sysIpcStat a0 a1 a2)
  | _ => throw .unsupportedSyscall

/-! ### Traps -/

inductive Trap where
  | userEnvCall
  | storeFault
  | storePageFault
  | instructionFault
  | instructionPageFault
  | loadFault
  | loadPageFault
  | illegalInstruction
  | supervisorTimer
  | other
  deriving DecidableEq, Repr

/-- The end of the system-call branch: the result goes to `a0`. -/
def finishSyscall (result : Option Int) : SystemM P Unit :=
  match result with
  | none => pure ()
  | some value => do
    let id ← kernel currentTask
    kernel (setTrapCxWord id 10 (wordOfInt value))
    kernel (observe (.returned value))
    kernel trapTail

def entryOf (task : TaskControlBlock) (syscallId : Nat) (args : Nat × Nat × Nat) : Entry :=
  { pid := task.pid, uid := task.security.credentials.uid, syscall := syscallId, args, target := task.file args.1 }

def handleSyscall : SystemM P Unit := do
  let id ← kernel currentTask
  let sepc ← kernel (trapCxWord id TrapContext.sepcWord)
  kernel (setTrapCxWord id TrapContext.sepcWord ((sepc + 4) % 2 ^ 64))
  let syscallId ← kernel (trapCxWord id 17)
  let a0 ← kernel (trapCxWord id 10)
  let a1 ← kernel (trapCxWord id 11)
  let a2 ← kernel (trapCxWord id 12)
  let task ← kernel (innerOf id)
  kernel (observe (.entered (entryOf task syscallId (a0, a1, a2))))
  let result ← syscall syscallId (a0, a1, a2)
  finishSyscall result

def handleFault (signal : SignalFlags) : KernelM P Unit := do
  currentAddSignal signal
  trapTail

def trapHandler (trap : Trap) : SystemM P Unit :=
  match trap with
  | .userEnvCall => handleSyscall
  | .storeFault | .storePageFault | .instructionFault | .instructionPageFault | .loadFault | .loadPageFault =>
    kernel (handleFault SignalFlags.SIGSEGV)
  | .illegalInstruction => kernel (handleFault SignalFlags.SIGILL)
  | .supervisorTimer => kernel (suspendCurrentAndRunNext .preempted)
  | .other => throw .unsupportedTrap

/-- `__alltraps`; the page mapped at `TRAP_CONTEXT` is the frame `trap_cx_ppn`. -/
def saveTrapCx (id : Nat) (x : List Nat) (sstatus sepc : Nat) : KernelM P Unit := do
  let task ← innerOf id
  modify fun k => k.setMem (TrapContext.save task.trapCxPpn x sstatus sepc k.mm.mem)

/-- A task that is scheduled again continues where it was suspended. -/
def resumeAt (point : KernelPoint) : SystemM P Unit :=
  match point with
  | .user => pure ()
  | .yielded => finishSyscall (some 0)
  | .preempted | .frozen => kernel trapTail
  | .pipeRead call => do
    match ← kernel (pipeReadLoop pipeLoopBound call) with
    | none => return ()
    | some count => finishSyscall (some (← completeTransfer call.permit count))
  | .pipeWrite call => do
    match ← kernel (pipeWriteLoop pipeLoopBound call) with
    | none => return ()
    | some count => finishSyscall (some (← completeTransfer call.permit count))
  | .stdinRead buf => do finishSyscall ((← kernel (stdinLoop buf)).map intOfWord)

/-! ### Steps and runs -/

/-- A step of the environment or of the running program. -/
inductive Event where
  /-- The running program traps with these registers; the clock and the console are read meanwhile. -/
  | trap (cause : Trap) (x : List Nat) (sstatus sepc now : Nat) (input : List Nat)
  /-- The running program stores a byte. -/
  | store (va : Nat) (byte : UInt8)
  /-- The idle processor looks for a task to run. -/
  | schedule (now : Nat) (input : List Nat)
  deriving DecidableEq, Repr

def setEnvironment (now : Nat) (consoleInput : List Nat) : KernelM P Unit :=
  modify fun k => { k with now, consoleInput }

/-- A store by user code: the hardware requires a valid, writable user page. -/
def userStore (va : Nat) (byte : UInt8) : KernelM P Unit := do
  let id ← currentTask
  let task ← innerOf id
  let mem ← userMemory
  match task.memorySet.translate mem (VirtAddr.floor (VirtAddr.ofUsize va)) with
  | none => return ()
  | some pte =>
    if pte.isValid && PTEFlags.contains pte.flags PTEFlags.U && PTEFlags.contains pte.flags PTEFlags.W then
      modify fun k => k.setMem
        (k.mm.mem.store (PhysAddr.ofPpn pte.ppn + VirtAddr.pageOffset (VirtAddr.ofUsize va)) [byte])
    else return ()

/-- One step; an event that is not possible in the current state does nothing. -/
def step (event : Event) : SystemM P Unit := do
  match event, ← kernel (Program.read Kernel.current) with
  | .trap cause x sstatus sepc now input, some id =>
    kernel (setEnvironment now input)
    kernel (saveTrapCx id x sstatus sepc)
    trapHandler cause
  | .store va byte, some _ => kernel (userStore va byte)
  | .schedule now input, none =>
    kernel (setEnvironment now input)
    match ← kernel runNext with
    | none => return ()
    | some point => resumeAt point
  | _, _ => return ()

def runEvents : List Event → SystemM P Unit
  | [] => pure ()
  | event :: rest => do
    step event
    runEvents rest

end

/-! ### Boot -/

def Kernel.blank (P : Platform) : Kernel P :=
  { mm := ⟨P.memory, StackFrameAllocator.new.init P.layout.firstFrame lastFrame⟩
    kernelSpace := ⟨⟨0, []⟩, []⟩, pidAllocator := .new, tasks := fun _ => none, nextTask := 0, readyQueue := []
    pid2tcb := fun _ => none, current := none, pipes := fun _ => none, nextPipeId := 1, inodes := fun _ => none
    nextInode := 0, disk := P.disk, now := 0, consoleInput := [], trace := [] }

def initprocName : Utf8 := [0x69, 0x6e, 0x69, 0x74, 0x70, 0x72, 0x6f, 0x63]

def startKernel (P : Platform) : KernelM P Unit := do
  let kernelSpace ← mm (MemorySet.newKernel P.layout)
  modify fun k => { k with kernelSpace }
  match ← openFile initprocName 0 with
  | none => throw .noInitproc
  | some inode =>
    let v ← readAll inode readAllBound 0 []
    let id ← taskNew v
    addTask id

def boot (P : Platform) : Except Halt (System P) :=
  match startKernel P (Kernel.blank P) with
  | .ok (_, kernel) => .ok { kernel, auditRing := .new }
  | .error halt => .error halt

def run (P : Platform) (events : List Event) : Except Halt (System P) :=
  match boot P with
  | .error halt => .error halt
  | .ok system =>
    match runEvents events system with
    | .ok (_, system) => .ok system
    | .error halt => .error halt

/-- The states of the kernel between two steps. -/
inductive Reachable {P : Platform} : System P → Prop where
  | boot {s : System P} (booted : boot P = .ok s) : Reachable s
  | step {s s' : System P} (before : Reachable s) (event : Event) (stepped : step event s = .ok ((), s')) : Reachable s'

end SecureIpc
