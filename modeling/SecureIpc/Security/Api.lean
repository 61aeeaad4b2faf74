import SecureIpc.Machine

/-! Data types shared by the IPC security modules, and the credentials of a process. -/

namespace SecureIpc

/-- A user identity; the source stores it in 32 bits. -/
abbrev Uid := Nat

abbrev ResourceId := Nat

structure CapabilitySet where
  bits : BitVec 32
  deriving DecidableEq, Repr

namespace CapabilitySet

def empty : CapabilitySet := ⟨0⟩

def KILL : CapabilitySet := ⟨1 <<< 0⟩

def IPC_ADMIN : CapabilitySet := ⟨1 <<< 1⟩

def AUDIT_READ : CapabilitySet := ⟨1 <<< 2⟩

/-- Whether every bit of `required` is present. -/
def contains (self required : CapabilitySet) : Bool := self.bits &&& required.bits == required.bits

def all : CapabilitySet := ⟨KILL.bits ||| IPC_ADMIN.bits ||| AUDIT_READ.bits⟩

end CapabilitySet

inductive IpcOperation where
  | signalSend | pipeCreate | pipeRead | pipeWrite | auditRead
  deriving DecidableEq, Repr

structure IpcSubject where
  pid : Nat
  uid : Uid
  capabilities : CapabilitySet
  deriving DecidableEq, Repr

structure IpcObject where
  id : ResourceId
  ownerUid : Uid
  deriving DecidableEq, Repr

structure IpcRequest where
  subject : IpcSubject
  object : IpcObject
  operation : IpcOperation
  amount : Nat
  deriving DecidableEq, Repr

inductive IpcError where
  | permissionDenied | invalidAddress | invalidArgument | processNotFound
  | tooManyFiles | resourceExhausted | tryAgain
  deriving DecidableEq, Repr

abbrev IpcResult (α : Type) := Except IpcError α

/-- The return value of a failed system call, from `syscall/fs.rs` and `syscall/process.rs`. -/
def ipcErrorToRet : IpcError → Int
  | .permissionDenied => -1
  | .invalidAddress => -14
  | .invalidArgument => -22
  | .processNotFound => -3
  | .tooManyFiles => -24
  | .resourceExhausted => -28
  | .tryAgain => -11

/-! ### Credentials -/

def rootUid : Uid := 0

structure Credentials where
  uid : Uid
  capabilities : CapabilitySet
  deriving DecidableEq, Repr

namespace Credentials

def root : Credentials := ⟨rootUid, .all⟩

def initial : Credentials := root

def forkFrom (parent : Credentials) : Credentials := parent

def isRoot (self : Credentials) : Bool := self.uid == rootUid

end Credentials

/-! ### Authorization policy -/

def authorizeSignal (request : IpcRequest) : IpcResult Unit :=
  let subj := request.subject
  let obj := request.object
  if subj.pid = obj.id then .ok ()
  else if subj.uid = obj.ownerUid then .ok ()
  else if subj.uid = 0 then .ok ()
  else if subj.capabilities.contains .KILL then .ok ()
  else .error .permissionDenied

def authorize (request : IpcRequest) : IpcResult Unit :=
  match request.operation with
  | .signalSend => authorizeSignal request
  | _ => .ok ()

end SecureIpc
