import SecureIpc.Security.Facade
import SecureIpc.Task.Process

/-! The audit system calls: 602 reads events, 603 reads the statistics. -/

namespace SecureIpc
open Lib

def AuditRecordV1.bytes (self : AuditRecordV1) : List UInt8 :=
  toBytes 2 self.abiVersion ++ toBytes 2 self.recordSize ++ toBytes 2 self.operation ++ toBytes 2 self.flags ++
    toBytes 4 (wordOfInt self.errno) ++ toBytes 4 self.subjectUid ++ toBytes 4 self.objectOwnerUid ++
    toBytes 4 self.reserved0 ++ toBytes 8 self.sequence ++ toBytes 8 self.timestampMs ++ toBytes 8 self.subjectPid ++
    toBytes 8 self.objectId ++ toBytes 8 self.requestedAmount ++ toBytes 8 self.resultValue ++ toBytes 8 self.reserved1

def IpcStatsV1.bytes (self : IpcStatsV1) : List UInt8 :=
  toBytes 2 self.abiVersion ++ toBytes 2 self.structSize ++ toBytes 4 self.flags ++ toBytes 8 self.capacity ++
    toBytes 8 self.retained ++ toBytes 8 self.firstSequence ++ toBytes 8 self.nextSequence ++ toBytes 8 self.totalEvents ++
    toBytes 8 self.successfulEvents ++ toBytes 8 self.failedEvents ++ toBytes 8 self.overwrittenEvents ++
    toBytes 8 self.reserved0

section
variable {P : Platform}

def callerContext : KernelM P (IpcSubject × Nat) := do
  let id ← currentTask
  let inner ← innerOf id
  return (inner.subject, inner.getUserToken)

def checkPermission (subject : IpcSubject) : IpcResult Unit :=
  if subject.uid = 0 ∨ subject.capabilities.contains .AUDIT_READ then .ok () else .error .permissionDenied

/-- Null pointers and address overflow of the output; the pages are checked by the copy. -/
def checkOutputRange (start count itemSize : Nat) : IpcResult Unit :=
  match checkedMul count itemSize with
  | none => .error .invalidAddress
  | some bytes =>
    if bytes ≠ 0 ∧ start = 0 then .error .invalidAddress
    else match checkedAdd start bytes with
      | none => .error .invalidAddress
      | some _ => .ok ()

/-- A failure is recorded once; a success is not. -/
def finishControlCall (operation : AuditControlOperation) (subject : IpcSubject) (requestedAmount : Nat)
    (outcome : IpcResult Nat) : SystemM P Int := do
  match outcome with
  | .ok value => return intOfWord value
  | .error error =>
    Audit.recordControlFailure operation subject requestedAmount error
    return -errorToErrno error

def copyRecords (batch : AuditBatch) (token start : Nat) : Nat → Nat → MmM (IpcResult Unit)
  | 0, _ => return .ok ()
  | count + 1, index =>
    match batch.recordAt index with
    | none => return .error .invalidArgument
    | some record => do
      let offset ← Program.lift (addWord start (index * auditRecordV1Size))
      match ← copyToUser token offset record.bytes with
      | .error _ => return .error .invalidAddress
      | .ok () => copyRecords batch token start count (index + 1)

/-- The permission is checked before the parameters and before the log is looked at. -/
def readRecords (subject : IpcSubject) (token records capacity afterSequence : Nat) : SystemM P (IpcResult Nat) :=
  match checkPermission subject with
  | .error error => return .error error
  | .ok () =>
    if capacity = 0 then return .ok 0
    else do
      let batch ← Audit.snapshot afterSequence capacity
      if batch.len = 0 then return .ok 0
      else
        match checkOutputRange records batch.len auditRecordV1Size with
        | .error error => return .error error
        | .ok () =>
          match ← kernel (mm (copyRecords batch token records batch.len 0)) with
          | .error error => return .error error
          | .ok () => return .ok batch.len

def sysAuditRead (records capacity afterSequence : Nat) : SystemM P Int := do
  let (subject, token) ← kernel callerContext
  let outcome ← readRecords subject token records capacity afterSequence
  finishControlCall .auditRead subject capacity outcome

def readStats (subject : IpcSubject) (token stats outSize flags : Nat) : SystemM P (IpcResult Nat) :=
  match checkPermission subject with
  | .error error => return .error error
  | .ok () =>
    if flags ≠ 0 ∨ outSize < ipcStatsV1Size then return .error .invalidArgument
    else
      match checkOutputRange stats 1 ipcStatsV1Size with
      | .error error => return .error error
      | .ok () => do
        let snapshot ← Audit.stats
        match ← kernel (mm (copyToUser token stats snapshot.toRecord.bytes)) with
        | .error _ => return .error .invalidAddress
        | .ok () => return .ok 0

def sysIpcStat (stats outSize flags : Nat) : SystemM P Int := do
  let (subject, token) ← kernel callerContext
  let outcome ← readStats subject token stats outSize flags
  finishControlCall .ipcStat subject 0 outcome

end

end SecureIpc
