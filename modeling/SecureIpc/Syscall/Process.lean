import SecureIpc.Fs.File
import SecureIpc.Task.Delivery
import SecureIpc.Security.Facade

/-! System calls on processes, signals and credentials. -/

namespace SecureIpc
open Lib

section
variable {P : Platform}

def sysGetTime : KernelM P Int := do return intOfWord (← Audit.getTimeMs)

def sysGetpid : KernelM P Int := do
  let task ← innerOf (← currentTask)
  return intOfWord task.pid

def sysFork : KernelM P Int := do
  let id ← currentTask
  let child ← fork id
  let task ← innerOf child
  setTrapCxWord child 10 0
  addTask child
  observe (.forked child)
  return intOfWord task.pid

/-- The loop of `sys_exec` over the argument pointers; `room` arguments may still follow. Stops with
the value the system call returns. -/
def execArgs (mem : PhysMem) (token : Nat) : Nat → Nat → Except Fault (Except Int (List Utf8))
  | room, args => do
    match ← copyFromUser mem token args 8 with
    | .error _ => return .error (-14)
    | .ok bytes =>
      let argStrPtr := ofBytes bytes
      if argStrPtr = 0 then return .ok []
      else
        match room with
        | 0 => return .error (-1)
        | room + 1 =>
          match ← tryTranslatedStr mem token argStrPtr maxStrLen with
          | none => return .error (-14)
          | some arg =>
            match ← execArgs mem token room ((args + 8) % 2 ^ 64) with
            | .error ret => return .error ret
            | .ok rest => return .ok (arg :: rest)

def sysExec (path args : Nat) : KernelM P Int := do
  let token ← currentUserToken
  let mem ← userMemory
  match ← fault (tryTranslatedStr mem token path maxStrLen) with
  | none => return -14
  | some path =>
    match ← fault (execArgs mem token maxArgv args) with
    | .error ret => return ret
    | .ok argsVec =>
      match ← openFile path 0 with
      | none => return -1
      | some inode =>
        let allData ← readAll inode readAllBound 0 []
        let id ← currentTask
        exec id allData argsVec
        return argsVec.length

def Kernel.awaits (self : Kernel P) (pid : Int) (child : Nat) : Bool :=
  match self.tasks child with
  | none => false
  | some task => pid == -1 || wordOfInt pid == task.pid

def Kernel.isZombie (self : Kernel P) (child : Nat) : Bool :=
  match self.tasks child with
  | none => false
  | some task => task.isZombie

def sysWaitpid (pid : Int) (exitCodePtr : Nat) : KernelM P Int := do
  let id ← currentTask
  let inner ← innerOf id
  if !(← Program.read fun k : Kernel P => inner.children.any (k.awaits pid)) then return -1
  else
    match ← Program.read fun k : Kernel P => inner.children.find? fun child => k.isZombie child && k.awaits pid child with
    | none => return -2
    | some child =>
      let task ← innerOf child
      match ← mm (copyToUser inner.memorySet.token exitCodePtr (toBytes 4 (wordOfInt task.exitCode))) with
      | .error _ => return -14
      | .ok () =>
        -- the first matching position is the first position of that child
        putInner id { inner with children := inner.children.erase child }
        if ← Program.read fun k : Kernel P => k.stronglyHeld child then throw .strongCount
        else
          dropTask child
          observe (.reaped child task.exitCode)
          return intOfWord task.pid

/-- A signal that is already pending is refused. -/
def TaskControlBlock.sendSignal (self : TaskControlBlock) (flag : SignalFlags) : TaskControlBlock × IpcResult Nat :=
  if SignalFlags.contains self.signals flag then (self, .error .tryAgain)
  else ({ self with signals := self.signals ||| flag }, .ok 1)

def sysKill (pid : Nat) (signum : Int) : SystemM P Int := do
  if signum < 0 ∨ wordOfInt signum > maxSig then return ipcErrorToRet .invalidArgument
  else
    match SignalFlags.fromBits (1 <<< signum.toNat) with
    | none => return ipcErrorToRet .invalidArgument
    | some flag =>
      match ← kernel (pid2task pid) with
      | none => return ipcErrorToRet .processNotFound
      | some target =>
        let caller ← kernel currentTask
        let targetInner ← kernel (innerOf target)
        let inner ← kernel (innerOf caller)
        let request : IpcRequest :=
          { subject := inner.subject, object := ⟨pid, targetInner.security.credentials.uid⟩
            operation := .signalSend, amount := 1 }
        match ← preflight inner.security request with
        | .error error => return ipcErrorToRet error
        | .ok (permit, security) =>
          kernel (putInner caller { inner with security })
          let targetInner ← kernel (innerOf target)
          let (targetInner, outcome) := targetInner.sendSignal flag
          kernel (putInner target targetInner)
          let inner ← kernel (innerOf caller)
          let (security, result) ← complete inner.security permit outcome
          kernel (putInner caller { inner with security })
          match result with
          | .ok _ => return 0
          | .error error => return ipcErrorToRet error

def sysSigprocmask (mask : Nat) : KernelM P Int := do
  let id ← currentTask
  let inner ← innerOf id
  match SignalFlags.fromBits (BitVec.ofNat 32 mask) with
  | none => return -1
  | some flag =>
    putInner id { inner with signalMask := flag }
    return inner.signalMask.toNat

def sysSigreturn : KernelM P Int := do
  let id ← currentTask
  let inner ← innerOf id
  match inner.trapCtxBackup with
  | none => throw .noTrapBackup
  | some backup =>
    putInner id { inner with handlingSig := -1 }
    initTrapCx id backup
    return intOfWord (backup.x.getD 10 0)

def checkSigactionError (signal : SignalFlags) (action oldAction : Nat) : Bool :=
  action == 0 || oldAction == 0 || signal == SignalFlags.SIGKILL || signal == SignalFlags.SIGSTOP

def sysSigaction (signum : Int) (action oldAction : Nat) : KernelM P Int := do
  let token ← currentUserToken
  let id ← currentTask
  let inner ← innerOf id
  if wordOfInt signum > maxSig then return -1
  else
    match SignalFlags.fromBits (1 <<< signum.toNat) with
    | none => return -1
    | some flag =>
      if checkSigactionError flag action oldAction then return -1
      else
        let prevAction ← fault (getIndex inner.signalActions signum.toNat)
        let mem ← userMemory
        match ← fault (copyFromUser mem token action SignalAction.size) with
        | .error _ => return -14
        | .ok bytes =>
          match ← mm (copyToUser token oldAction prevAction.bytes) with
          | .error _ => return -14
          | .ok () =>
            putInner id { inner with signalActions := inner.signalActions.set signum.toNat (.ofBytes bytes) }
            return 0

def sysGetuid : KernelM P Int := do
  let task ← innerOf (← currentTask)
  return task.security.credentials.uid

/-- Only root may change its uid; leaving root drops every capability. -/
def Credentials.setUid (self : Credentials) (uid : Nat) : IpcResult Credentials :=
  if !self.isRoot then .error .permissionDenied
  else if 2 ^ 32 ≤ uid then .error .invalidArgument
  else if uid ≠ 0 then .ok ⟨uid, .empty⟩
  else .ok { self with uid }

def sysSetuid (uid : Nat) : KernelM P Int := do
  let id ← currentTask
  let inner ← innerOf id
  match inner.security.credentials.setUid uid with
  | .error error => return ipcErrorToRet error
  | .ok credentials =>
    putInner id { inner with security := { inner.security with credentials } }
    return 0

end

end SecureIpc
