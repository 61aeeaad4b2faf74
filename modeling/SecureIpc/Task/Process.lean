import SecureIpc.Kernel

/-!
Pids and kernel stacks, the ready queue and the processor, and the life of a process: creation,
`fork`, `exec`, `exit` and the reaping of an exited child.
-/

namespace SecureIpc
open Lib

section
variable {P : Platform}

/-! ### Pids and kernel stacks -/

def pidAlloc : KernelM P Nat := do
  let (pid, pidAllocator) ← Program.read fun k : Kernel P => k.pidAllocator.alloc
  modify fun k => { k with pidAllocator }
  return pid

/-- Dropping a `PidHandle`. -/
def pidDealloc (pid : Nat) : KernelM P Unit := do
  let allocator ← Program.read Kernel.pidAllocator
  let pidAllocator ← Program.lift (allocator.dealloc pid)
  modify fun k => { k with pidAllocator }

@[irreducible] def kernelStackPosition (appId : Nat) : Nat × Nat :=
  let top := subWrap trampoline (appId * (kernelStackSize + pageSize))
  (subWrap top kernelStackSize, top)

def kernelStackNew (pid : Nat) : KernelM P Unit := do
  let (bottom, top) := kernelStackPosition pid
  let kernelSpace ← Program.read Kernel.kernelSpace
  let kernelSpace ← mm (kernelSpace.insertFramedArea P.layout (VirtAddr.ofUsize bottom) (VirtAddr.ofUsize top)
    (PTEFlags.R ||| PTEFlags.W))
  modify fun k => { k with kernelSpace }

/-- Dropping a `KernelStack`. -/
def kernelStackDrop (pid : Nat) : KernelM P Unit := do
  let vpn ← fault (VirtAddr.toVpn (VirtAddr.ofUsize (kernelStackPosition pid).1))
  let kernelSpace ← Program.read Kernel.kernelSpace
  let kernelSpace ← mm (kernelSpace.removeAreaWithStartVpn vpn)
  modify fun k => { k with kernelSpace }

/-! ### The ready queue and the processor -/

def addTask (id : Nat) : KernelM P Unit := do
  let task ← innerOf id
  modify fun k => { k with pid2tcb := Kernel.set k.pid2tcb task.pid (some id), readyQueue := k.readyQueue ++ [id] }

def fetchTask : KernelM P (Option Nat) := do
  match ← Program.read Kernel.readyQueue with
  | [] => return none
  | id :: readyQueue =>
    modify fun k => { k with readyQueue }
    return some id

def pid2task (pid : Nat) : KernelM P (Option Nat) := Program.read fun k => k.pid2tcb pid

def removeFromPid2task (pid : Nat) : KernelM P Unit := do
  match ← Program.read fun k : Kernel P => k.pid2tcb pid with
  | none => throw .pidNotRegistered
  | some _ => modify fun k => { k with pid2tcb := Kernel.set k.pid2tcb pid none }

def takeCurrentTask : KernelM P Nat := do
  let id ← currentTask
  modify fun k => { k with current := none }
  return id

def suspendCurrentAndRunNext (point : KernelPoint) : KernelM P Unit := do
  let id ← takeCurrentTask
  let task ← innerOf id
  putInner id { task with taskStatus := .ready, resume := point }
  addTask id

/-- One round of `run_tasks`: the task that runs next, and where it continues. -/
def runNext : KernelM P (Option KernelPoint) := do
  match ← fetchTask with
  | none => return none
  | some id =>
    let task ← innerOf id
    putInner id { task with taskStatus := .running, resume := .user }
    modify fun k => { k with current := some id }
    return some task.resume

/-! ### Exit -/

def idlePid : Nat := 1

/-- The first task is `INITPROC`. -/
def initproc : Nat := 0

def adopt (child : Nat) : KernelM P Unit := do
  let task ← innerOf child
  putInner child { task with parent := some initproc }
  let init ← innerOf initproc
  putInner initproc { init with children := init.children ++ [child] }

def adoptAll : List Nat → KernelM P Unit
  | [] => pure ()
  | child :: rest => do
    adopt child
    adoptAll rest

/-- An exited process keeps its page table until it is reaped, but no data pages and no files. -/
def exitCurrentAndRunNext (exitCode : Int) : KernelM P Unit := do
  observe (.exited exitCode)
  let id ← takeCurrentTask
  let inner ← innerOf id
  if inner.pid = idlePid then throw (.shutdown (exitCode != 0))
  else
    removeFromPid2task inner.pid
    adoptAll inner.children
    let memorySet ← mm inner.memorySet.recycleDataPages
    putInner id { inner with
      taskStatus := .zombie, exitCode, children := [], memorySet, fdTable := [], resume := .user }

/-! ### Creation -/

def trapCxPpnOf (memorySet : MemorySet) : KernelM P Nat := do
  let mem ← userMemory
  let vpn ← fault (VirtAddr.toVpn (VirtAddr.ofUsize trapContext))
  match memorySet.translate mem vpn with
  | none => throw (.fault .untranslated)
  | some pte => return pte.ppn

def newTask (task : TaskControlBlock) : KernelM P Nat := do
  let id ← Program.read Kernel.nextTask
  modify fun k => { k.setTask id task with nextTask := id + 1 }
  return id

def initTrapCx (id : Nat) (context : TrapContext) : KernelM P Unit := do
  let task ← innerOf id
  modify fun k => k.setMem (context.store task.trapCxPpn k.mm.mem)

def kernelToken : KernelM P Nat := Program.read fun k => k.kernelSpace.token

def taskNew (elfData : List UInt8) : KernelM P Nat := do
  let (memorySet, userSp, entryPoint) ← mm (MemorySet.fromElf P.layout P.parseElf elfData)
  let trapCxPpn ← trapCxPpnOf memorySet
  let pid ← pidAlloc
  kernelStackNew pid
  let kernelStackTop := (kernelStackPosition pid).2
  let id ← newTask
    { pid, trapCxPpn, resume := .user, taskStatus := .ready, memorySet, parent := none, children := []
      exitCode := 0, fdTable := [some .stdin, some .stdout, some .stdout], security := .initial
      signals := 0, signalMask := 0, handlingSig := -1, signalActions := SignalActions.default
      killed := false, frozen := false, trapCtxBackup := none }
  let token ← kernelToken
  initTrapCx id (.appInitContext P.sstatus entryPoint userSp token kernelStackTop P.trapHandler)
  return id

def fork (id : Nat) : KernelM P Nat := do
  let parent ← innerOf id
  let memorySet ← mm (MemorySet.fromExistedUser P.layout parent.memorySet)
  let trapCxPpn ← trapCxPpnOf memorySet
  let pid ← pidAlloc
  kernelStackNew pid
  let kernelStackTop := (kernelStackPosition pid).2
  let child ← newTask
    { pid, trapCxPpn, resume := .user, taskStatus := .ready, memorySet, parent := some id, children := []
      exitCode := 0, fdTable := parent.fdTable, security := .forkFrom parent.security
      signals := 0, signalMask := parent.signalMask, handlingSig := -1, signalActions := parent.signalActions
      killed := false, frozen := false, trapCtxBackup := none }
  putInner id { parent with children := parent.children ++ [child] }
  setTrapCxWord child TrapContext.kernelSpWord kernelStackTop
  return child

/-! ### Exec -/

/-- `*try_translated_refmut(token, addr)` for a value of `size` bytes in the fresh user stack. -/
def argumentRef (token addr size : Nat) : MmM Nat := do
  match ← Program.read fun mm : Mm => tryTranslatedRefmut mm.mem token addr size size with
  | none => throw .argumentArea
  | some pa => return pa

def storeArgument (pa : Nat) (bytes : List UInt8) : MmM Unit :=
  modify fun mm => { mm with mem := mm.mem.store pa bytes }

def argumentSlots (token : Nat) : Nat → Nat → MmM (List Nat)
  | 0, _ => pure []
  | count + 1, base => do
    let slot ← argumentRef token base 8
    let rest ← argumentSlots token count ((base + 8) % 2 ^ 64)
    return slot :: rest

def pushString (token : Nat) : Nat → Utf8 → MmM Unit
  | p, [] => do
    let pa ← argumentRef token p 1
    storeArgument pa [0]
  | p, c :: rest => do
    let pa ← argumentRef token p 1
    storeArgument pa [c]
    pushString token ((p + 1) % 2 ^ 64) rest

/-- The arguments and their pointers; returns the stack pointer below the last one. -/
def pushStrings (token : Nat) : List Utf8 → List Nat → Nat → MmM Nat
  | arg :: args, slot :: slots, userSp => do
    let userSp := subWrap userSp (arg.length + 1)
    storeArgument slot (toBytes 8 userSp)
    pushString token userSp arg
    pushStrings token args slots userSp
  | _, _, userSp => pure userSp

def pushArguments (token userSp : Nat) (args : List Utf8) : MmM (Nat × Nat) := do
  let argvBase := subWrap userSp ((args.length + 1) * 8)
  let slots ← argumentSlots token (args.length + 1) argvBase
  match slots[args.length]? with
  | none => throw .index
  | some last =>
    storeArgument last (toBytes 8 0)
    let userSp ← pushStrings token args slots argvBase
    return (argvBase, userSp - userSp % 8)

/-- `TaskControlBlock::exec`: the old address space is dropped when the new one replaces it. -/
def exec (id : Nat) (elfData : List UInt8) (args : List Utf8) : KernelM P Unit := do
  let (memorySet, userSp, entryPoint) ← mm (MemorySet.fromElf P.layout P.parseElf elfData)
  let trapCxPpn ← trapCxPpnOf memorySet
  let (argvBase, userSp) ← mm (pushArguments memorySet.token userSp args)
  let inner ← innerOf id
  mm inner.memorySet.drop
  putInner id { inner with memorySet, trapCxPpn }
  let token ← kernelToken
  let context := TrapContext.appInitContext P.sstatus entryPoint userSp token (kernelStackPosition inner.pid).2 P.trapHandler
  initTrapCx id { context with x := (context.x.set 10 args.length).set 11 argvBase }

/-! ### Reaping -/

/-- Whether anything but the list it has just been removed from still holds the task. -/
def Kernel.stronglyHeld (self : Kernel P) (id : Nat) : Bool :=
  self.current == some id || self.readyQueue.contains id ||
    (List.range self.pidAllocator.current).any (fun pid => self.pid2tcb pid == some id) ||
    (List.range self.nextTask).any fun other =>
      match self.tasks other with
      | none => false
      | some task => task.children.contains id

/-- Dropping the last reference to a control block: pid, kernel stack, address space. -/
def dropTask (id : Nat) : KernelM P Unit := do
  let task ← innerOf id
  pidDealloc task.pid
  kernelStackDrop task.pid
  mm task.memorySet.drop
  modify fun k => { k with tasks := Kernel.set k.tasks id none }

end

end SecureIpc
