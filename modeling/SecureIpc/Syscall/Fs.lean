import SecureIpc.Fs.File
import SecureIpc.Security.Facade

/-! System calls on descriptors. A call that suspends the caller returns nothing. -/

namespace SecureIpc
open Lib

section
variable {P : Platform}

/-- The request behind a read or write of an IPC file. -/
def TaskControlBlock.transferRequest (self : TaskControlBlock) (file : File) (operation : IpcOperation) (len : Nat) :
    Option IpcRequest :=
  file.ipcObject.map fun object => { subject := self.subject, object, operation, amount := len }

/-- The end of `sys_read` and `sys_write` on a pipe, once the transfer has returned. -/
def completeTransfer (permit : IpcPermit) (count : Nat) : SystemM P Int := do
  let id ← kernel currentTask
  let inner ← kernel (innerOf id)
  let (security, result) ← complete inner.security permit (.ok count)
  kernel (putInner id { inner with security })
  return resultToRet result

def transferPipe (id : Nat) (request : IpcRequest) (len : Nat)
    (transfer : IpcPermit → KernelM P (Option Nat)) : SystemM P (Option Int) := do
  let inner ← kernel (innerOf id)
  match ← preflight inner.security request with
  | .error error => return some (ipcErrorToRet error)
  | .ok (permit, security) =>
    kernel (putInner id { inner with security })
    if len = 0 then return some (← completeTransfer permit 0)
    else
      match ← kernel (transfer permit) with
      | none => return none
      | some count => return some (← completeTransfer permit count)

/-- A failed validation of the user buffer; only IPC files are audited. -/
def rejectBuffer (request : Option IpcRequest) (error : IpcError) : SystemM P (Option Int) := do
  match request with
  | some request =>
    recordFailure request error
    return some (ipcErrorToRet error)
  | none => return some (ipcErrorToRet error)

def sysWrite (fd buf len : Nat) : SystemM P (Option Int) := do
  let token ← kernel currentUserToken
  let id ← kernel currentTask
  let inner ← kernel (innerOf id)
  match inner.file fd with
  | none => return some (-1)
  | some file =>
    if !file.writable then return some (-1)
    else
      let request := inner.transferRequest file .pipeWrite len
      let mem ← kernel userMemory
      match ← kernel (fault (copyBytesFromUser mem token buf len)) with
      | .error error => rejectBuffer request error
      | .ok userBuffer =>
        match file, request with
        | .pipe endpoint, some request => transferPipe id request len (pipeWrite endpoint userBuffer)
        | _, _ =>
          if len = 0 then return some 0
          else return (← kernel (file.writePlain userBuffer)).map intOfWord

def sysRead (fd buf len : Nat) : SystemM P (Option Int) := do
  let token ← kernel currentUserToken
  let id ← kernel currentTask
  let inner ← kernel (innerOf id)
  match inner.file fd with
  | none => return some (-1)
  | some file =>
    if !file.readable then return some (-1)
    else
      let request := inner.transferRequest file .pipeRead len
      let mem ← kernel userMemory
      match ← kernel (fault (tryTranslatedByteBuffer mem token buf len true)) with
      | none => rejectBuffer request .invalidAddress
      | some buffers =>
        match file, request with
        | .pipe endpoint, some request => transferPipe id request len (pipeRead endpoint ⟨buffers⟩)
        | _, _ =>
          if len = 0 then return some 0
          else return (← kernel (file.readPlain ⟨buffers⟩)).map intOfWord

def sysOpen (path flags : Nat) : KernelM P Int := do
  let id ← currentTask
  let token ← currentUserToken
  let mem ← userMemory
  match ← fault (tryTranslatedStr mem token path maxStrLen) with
  | none => return ipcErrorToRet .invalidAddress
  | some path =>
    match OpenFlags.fromBits (BitVec.ofNat 32 flags) with
    | none => return ipcErrorToRet .invalidArgument
    | some openFlags =>
      match ← openFile path openFlags with
      | none => return -1
      | some inode =>
        let inner ← newInode inode
        let (readable, writable) := OpenFlags.readWrite openFlags
        let task ← innerOf id
        let (task, ret) ← fault (task.openFd (.inode readable writable inner))
        putInner id task
        return ret

def sysClose (fd : Nat) : KernelM P Int := do
  let id ← currentTask
  let inner ← innerOf id
  let (inner, ret) ← Program.lift (inner.closeFd fd)
  putInner id inner
  return ret

def sysDup (fd : Nat) : KernelM P Int := do
  let id ← currentTask
  let inner ← innerOf id
  let (inner, ret) ← Program.lift (inner.dupFd fd)
  putInner id inner
  return ret

def copyDescriptors (token pipe readFd writeFd : Nat) : MmM (IpcResult Unit) := do
  match ← copyToUser token pipe (toBytes 8 readFd) with
  | .error error => return .error error
  | .ok () => copyToUser token ((pipe + 8) % 2 ^ 64) (toBytes 8 writeFd)

def finishPipe (id : Nat) (permit : IpcPermit) (readFd writeFd : Nat) (copyResult : IpcResult Unit) :
    SystemM P Int := do
  let inner ← kernel (innerOf id)
  match copyResult with
  | .ok () =>
    let security ← Program.lift (inner.security.registerPipeFd readFd)
    let security ← Program.lift (security.registerPipeFd writeFd)
    let (security, result) ← complete security permit (.ok 0)
    kernel (putInner id { inner with security })
    return resultToRet result
  | .error error =>
    -- `List.set` leaves a table alone that is too short, as the source does
    let fdTable := (inner.fdTable.set readFd none).set writeFd none
    let (security, result) ← complete inner.security permit (.error error)
    kernel (putInner id { inner with fdTable, security })
    return resultToRet result

def sysPipe (pipe : Nat) : SystemM P Int := do
  let id ← kernel currentTask
  let token ← kernel currentUserToken
  let inner ← kernel (innerOf id)
  let uid := inner.security.credentials.uid
  let request : IpcRequest :=
    { subject := inner.subject, object := ⟨0, uid⟩, operation := .pipeCreate, amount := 1 }
  match ← preflight inner.security request with
  | .error error => return ipcErrorToRet error
  | .ok (permit, security) =>
    match ← kernel (makePipe uid) with
    | .error error =>
      let (security, result) ← complete security permit (.error error)
      kernel (putInner id { inner with security })
      return resultToRet result
    | .ok (pipeRead, pipeWrite) =>
      let (inner, readFd) ← kernel (fault ({ inner with security }.installFd pipeRead))
      let (inner, writeFd) ← kernel (fault (inner.installFd pipeWrite))
      kernel (putInner id inner)
      let copyResult ← kernel (mm (copyDescriptors token pipe readFd writeFd))
      finishPipe id permit readFd writeFd copyResult

end

end SecureIpc
