import SecureIpc.Security.Api

/-!
The audit module: conversion of requests to events, the stable output records, and the ring that
keeps the most recent events. Arrays are lists of fixed length; an index outside the list and a
counter that leaves 64 bits stop the kernel.
-/

namespace SecureIpc

def auditRingCapacity : Nat := 256

def auditReadMaxRecords : Nat := 32

def auditAbiVersion : Nat := 1

def auditRecordV1Size : Nat := 80

def ipcStatsV1Size : Nat := 80

def auditRecordGapBefore : Nat := 1

def auditObjectNone : Nat := 0

def auditUidUnknown : Nat := 2 ^ 32 - 1

def auditOpUnspecified : Nat := 0
def auditOpSignalSend : Nat := 1
def auditOpPipeCreate : Nat := 2
def auditOpPipeRead : Nat := 3
def auditOpPipeWrite : Nat := 4
def auditOpAuditRead : Nat := 5
def auditOpIpcStat : Nat := 6

structure AuditRecordV1 where
  abiVersion : Nat
  recordSize : Nat
  operation : Nat
  flags : Nat
  errno : Int
  subjectUid : Nat
  objectOwnerUid : Nat
  reserved0 : Nat
  sequence : Nat
  timestampMs : Nat
  subjectPid : Nat
  objectId : Nat
  requestedAmount : Nat
  resultValue : Nat
  reserved1 : Nat
  deriving DecidableEq, Repr

structure IpcStatsV1 where
  abiVersion : Nat
  structSize : Nat
  flags : Nat
  capacity : Nat
  retained : Nat
  firstSequence : Nat
  nextSequence : Nat
  totalEvents : Nat
  successfulEvents : Nat
  failedEvents : Nat
  overwrittenEvents : Nat
  reserved0 : Nat
  deriving DecidableEq, Repr

def operationToAuditId : IpcOperation → Nat
  | .signalSend => auditOpSignalSend
  | .pipeCreate => auditOpPipeCreate
  | .pipeRead => auditOpPipeRead
  | .pipeWrite => auditOpPipeWrite
  | .auditRead => auditOpAuditRead

def errorToErrno : IpcError → Int
  | .permissionDenied => 1
  | .processNotFound => 3
  | .tryAgain => 11
  | .invalidAddress => 14
  | .invalidArgument => 22
  | .tooManyFiles => 24
  | .resourceExhausted => 28

theorem ipcErrorToRet_eq (error : IpcError) : ipcErrorToRet error = -errorToErrno error ∧ ipcErrorToRet error < 0 := by
  cases error <;> decide

inductive AuditControlOperation where
  | auditRead | ipcStat
  deriving DecidableEq, Repr

/-- An event kept by the kernel; `sequence` is assigned by `AuditRing.push`. -/
structure AuditEvent where
  sequence : Nat
  timestampMs : Nat
  operation : Nat
  errno : Int
  subjectPid : Nat
  subjectUid : Nat
  objectId : Nat
  objectOwnerUid : Nat
  requestedAmount : Nat
  resultValue : Nat
  deriving DecidableEq, Repr

namespace AuditEvent

def EMPTY : AuditEvent :=
  { sequence := 0, timestampMs := 0, operation := auditOpUnspecified, errno := 0, subjectPid := 0
    subjectUid := 0, objectId := 0, objectOwnerUid := 0, requestedAmount := 0, resultValue := 0 }

/-- Success of a signal or of a pipe creation counts one operation; reads and writes count bytes. -/
def fromRequest (request : IpcRequest) (outcome : IpcResult Nat) (timestampMs : Nat) : AuditEvent :=
  let (errno, resultValue) := match outcome with
    | .ok value =>
      let amount := match request.operation with
        | .signalSend | .pipeCreate => 1
        | _ => value
      ((0 : Int), amount)
    | .error error => (errorToErrno error, 0)
  { sequence := 0
    timestampMs
    operation := operationToAuditId request.operation
    errno
    subjectPid := request.subject.pid
    subjectUid := request.subject.uid
    objectId := request.object.id
    objectOwnerUid := request.object.ownerUid
    requestedAmount := request.amount
    resultValue }

def fromControlFailure (operation : AuditControlOperation) (subject : IpcSubject)
    (requestedAmount : Nat) (error : IpcError) (timestampMs : Nat) : AuditEvent :=
  let (operation, requestedAmount) := match operation with
    | .auditRead => (auditOpAuditRead, requestedAmount)
    | .ipcStat => (auditOpIpcStat, 0)
  { sequence := 0
    timestampMs
    operation
    errno := errorToErrno error
    subjectPid := subject.pid
    subjectUid := subject.uid
    objectId := auditObjectNone
    objectOwnerUid := auditUidUnknown
    requestedAmount
    resultValue := 0 }

def toRecord (self : AuditEvent) (gapBefore : Bool) : AuditRecordV1 :=
  { abiVersion := auditAbiVersion
    recordSize := auditRecordV1Size
    operation := self.operation
    flags := if gapBefore then auditRecordGapBefore else 0
    errno := self.errno
    subjectUid := self.subjectUid
    objectOwnerUid := self.objectOwnerUid
    reserved0 := 0
    sequence := self.sequence
    timestampMs := self.timestampMs
    subjectPid := self.subjectPid
    objectId := self.objectId
    requestedAmount := self.requestedAmount
    resultValue := self.resultValue
    reserved1 := 0 }

end AuditEvent

structure AuditBatch where
  events : List AuditEvent
  len : Nat
  gapBefore : Bool
  deriving DecidableEq, Repr

namespace AuditBatch

def empty : AuditBatch := ⟨List.replicate auditReadMaxRecords .EMPTY, 0, false⟩

def recordAt (self : AuditBatch) (index : Nat) : Option AuditRecordV1 :=
  if self.len ≤ index then none
  else self.events[index]?.map fun event => event.toRecord (index == 0 && self.gapBefore)

end AuditBatch

structure AuditStatsSnapshot where
  capacity : Nat
  retained : Nat
  firstSequence : Nat
  nextSequence : Nat
  totalEvents : Nat
  successfulEvents : Nat
  failedEvents : Nat
  overwrittenEvents : Nat
  deriving DecidableEq, Repr

def AuditStatsSnapshot.toRecord (self : AuditStatsSnapshot) : IpcStatsV1 :=
  { abiVersion := auditAbiVersion
    structSize := ipcStatsV1Size
    flags := 0
    capacity := self.capacity
    retained := self.retained
    firstSequence := self.firstSequence
    nextSequence := self.nextSequence
    totalEvents := self.totalEvents
    successfulEvents := self.successfulEvents
    failedEvents := self.failedEvents
    overwrittenEvents := self.overwrittenEvents
    reserved0 := 0 }

structure AuditRing where
  events : List AuditEvent
  head : Nat
  len : Nat
  nextSequence : Nat
  totalEvents : Nat
  successfulEvents : Nat
  failedEvents : Nat
  overwrittenEvents : Nat
  deriving DecidableEq, Repr

namespace AuditRing

def new : AuditRing :=
  { events := List.replicate auditRingCapacity .EMPTY, head := 0, len := 0, nextSequence := 1
    totalEvents := 0, successfulEvents := 0, failedEvents := 0, overwrittenEvents := 0 }

/-- The slot update of `push`: the first free slot, or the oldest event once the ring is full. -/
def store (self : AuditRing) (event : AuditEvent) : Except Fault AuditRing :=
  if self.len < auditRingCapacity then do
    let index := (← addWord self.head self.len) % auditRingCapacity
    let events ← setIndex self.events index event
    let len ← addWord self.len 1
    return { self with events, len }
  else do
    let events ← setIndex self.events self.head event
    let head := (← addWord self.head 1) % auditRingCapacity
    let overwrittenEvents ← addWord self.overwrittenEvents 1
    return { self with events, head, overwrittenEvents }

/-- Stores an event under the next sequence number; once the numbers are exhausted it is ignored. -/
def push (self : AuditRing) (event : AuditEvent) : Except Fault AuditRing :=
  match checkedAdd self.nextSequence 1 with
  | none => .ok self
  | some nextSequence => do
    let event := { event with sequence := self.nextSequence }
    let self ← store { self with nextSequence } event
    let totalEvents ← addWord self.totalEvents 1
    let self := { self with totalEvents }
    if event.errno = 0 then
      let successfulEvents ← addWord self.successfulEvents 1
      return { self with successfulEvents }
    else
      let failedEvents ← addWord self.failedEvents 1
      return { self with failedEvents }

/-- The oldest sequence number, or the next one for an empty ring. -/
def firstSequence (self : AuditRing) : Except Fault Nat :=
  if self.len = 0 then .ok self.nextSequence
  else do return (← getIndex self.events self.head).sequence

def copyOut (self : AuditRing) (offset : Nat) : Nat → Nat → List AuditEvent → Except Fault (List AuditEvent)
  | 0, _, events => .ok events
  | count + 1, batchIndex, events => do
    let ringIndex := (← addWord (← addWord self.head offset) batchIndex) % auditRingCapacity
    let events ← setIndex events batchIndex (← getIndex self.events ringIndex)
    copyOut self offset count (batchIndex + 1) events

def snapshot (self : AuditRing) (afterSequence requestedCapacity : Nat) : Except Fault AuditBatch :=
  let limit := min requestedCapacity auditReadMaxRecords
  if limit = 0 ∨ self.len = 0 ∨ afterSequence = u64Max then .ok .empty
  else do
    let wantedSequence ← addWord afterSequence 1
    let firstSequence ← self.firstSequence
    let startSequence := max wantedSequence firstSequence
    if self.nextSequence ≤ startSequence then return .empty
    else
      let count := min (← subWord self.nextSequence startSequence) limit
      let offset ← subWord startSequence firstSequence
      let events ← copyOut self offset count 0 AuditBatch.empty.events
      return { events, len := count, gapBefore := decide (wantedSequence < firstSequence) }

def stats (self : AuditRing) : Except Fault AuditStatsSnapshot := do
  return { capacity := auditRingCapacity
           retained := self.len
           firstSequence := ← self.firstSequence
           nextSequence := self.nextSequence
           totalEvents := self.totalEvents
           successfulEvents := self.successfulEvents
           failedEvents := self.failedEvents
           overwrittenEvents := self.overwrittenEvents }

end AuditRing

end SecureIpc
