import SecureIpc.Security.Snapshot
import SecureIpc.Lib.Program

/-!
The command `auditctl read`: it reads the log in batches up to the tail that the log has at the start.
The command is written over the system calls it makes. In a `Shell` they are those of a caller that may
read the log and whose buffers are mapped, so they return the statistics and the records of the ring;
other processes append events between them.
-/

namespace SecureIpc
open Lib

namespace AuditRecordV1

def hasGapBefore (self : AuditRecordV1) : Bool := self.flags &&& auditRecordGapBefore != 0

def default : AuditRecordV1 :=
  { abiVersion := 0, recordSize := 0, operation := 0, flags := 0, errno := 0, subjectUid := 0, objectOwnerUid := 0
    reserved0 := 0, sequence := 0, timestampMs := 0, subjectPid := 0, objectId := 0, requestedAmount := 0
    resultValue := 0, reserved1 := 0 }

end AuditRecordV1

namespace Auditctl

def batchSize : Nat := 32

def exitError : Int := 1

inductive Call where
  | ipcStat
  | auditRead
  deriving DecidableEq, Repr

inductive Line where
  /-- `auditctl: {} failed: {} (errno={}, return={})` -/
  | failed (call : Call) (result : Int)
  /-- `auditctl: invalid ipc_stat return value: {}` -/
  | invalidReturn (result : Int)
  /-- `auditctl: incompatible stats ABI: version={}, size={}` -/
  | incompatibleStats (abiVersion structSize : Nat)
  /-- `auditctl: inconsistent audit statistics` -/
  | inconsistentStats
  /-- `auditctl: retry with: auditctl read {}` -/
  | retry (cursor : Nat)
  /-- `auditctl: invalid audit_read count: {}` -/
  | invalidCount (count : Nat)
  /-- `auditctl: invalid audit record at batch index {}; cursor={}` -/
  | invalidRecord (index cursor : Nat)
  /-- `auditctl: warning: GAP_BEFORE before sequence {}; records were overwritten` -/
  | gapBefore (sequence : Nat)
  /-- `show_record`: one line with the fields of the record. -/
  | record (record : AuditRecordV1)
  /-- `auditctl: records={} cursor={} through={}` -/
  | summary (displayed cursor through : Nat)
  deriving DecidableEq, Repr

def Line.isError : Line → Bool
  | gapBefore _ | record _ | summary _ _ _ => false
  | _ => true

def checkedSub (a b : Nat) : Option Nat := if b ≤ a then some (a - b) else none

/-- `records[..count]`, which panics behind the end. -/
def sliceTo (records : List AuditRecordV1) (count : Nat) : Except Fault (List AuditRecordV1) :=
  if count ≤ records.length then .ok (records.take count) else .error .index

def invalidIndex : List AuditRecordV1 → Nat → Nat → Option Nat
  | [], _, _ => none
  | record :: rest, index, previous =>
    if record.abiVersion ≠ auditAbiVersion ∨ record.recordSize ≠ auditRecordV1Size ∨ record.sequence ≤ previous ∨
        record.errno < 0 ∨ (index ≠ 0 ∧ record.hasGapBefore) then some index
    else invalidIndex rest (index + 1) record.sequence

/-- How a round of the loop ends: with another round, with `break 'read`, or with `return`. -/
inductive Round where
  | again (records : List AuditRecordV1) (cursor displayed : Nat)
  | leave (cursor displayed : Nat)
  | exit (code : Int)
  deriving DecidableEq, Repr

/-- The system calls and the output of the command, as programs on the state of its environment. -/
structure Environment (σ : Type) where
  /-- `audit::stat`: the return value and the statistics. -/
  stat : Program σ Fault (Int × IpcStatsV1)
  /-- `audit::read`: the return value and the buffer after the call. -/
  read : List AuditRecordV1 → Nat → Program σ Fault (Int × List AuditRecordV1)
  println : Line → Program σ Fault Unit

namespace Environment
variable {σ : Type} (env : Environment σ)

def loadStats : Program σ Fault (Except Int IpcStatsV1) := do
  let (result, stats) ← env.stat
  if result < 0 then
    env.println (.failed .ipcStat result)
    return .error exitError
  else if result ≠ 0 then
    env.println (.invalidReturn result)
    return .error exitError
  else if stats.abiVersion ≠ auditAbiVersion ∨ stats.structSize ≠ ipcStatsV1Size then
    env.println (.incompatibleStats stats.abiVersion stats.structSize)
    return .error exitError
  else if stats.capacity < stats.retained ∨
      checkedAdd stats.successfulEvents stats.failedEvents ≠ some stats.totalEvents ∨
      stats.firstSequence = 0 ∨ checkedSub stats.nextSequence stats.firstSequence ≠ some stats.retained then
    env.println .inconsistentStats
    return .error exitError
  else return .ok stats

/-- The gap is reported even if its record is not shown. -/
def warn (record : AuditRecordV1) : Program σ Fault Unit :=
  if record.hasGapBefore then env.println (.gapBefore record.sequence) else pure ()

/-- The display loop over a batch; `true` if it left the outer loop, and the new cursor and count. -/
def showBatch (through : Nat) : List AuditRecordV1 → Nat → Nat → Program σ Fault (Bool × Nat × Nat)
  | [], cursor, displayed => return (false, cursor, displayed)
  | record :: rest, cursor, displayed => do
    env.warn record
    if record.sequence > through then return (true, cursor, displayed)
    else
      env.println (.record record)
      showBatch through rest record.sequence (displayed + 1)

def readRound (through : Nat) (records : List AuditRecordV1) (cursor displayed : Nat) : Program σ Fault Round := do
  let (result, records) ← env.read records cursor
  if result < 0 then
    env.println (.failed .auditRead result)
    env.println (.retry cursor)
    return .exit exitError
  else if result = 0 then return .leave cursor displayed
  else
    let count := result.toNat
    if count > records.length then
      env.println (.invalidCount count)
      return .exit exitError
    else
      let batch ← Program.lift (sliceTo records count)
      match invalidIndex batch 0 cursor with
      | some index =>
        env.println (.invalidRecord index cursor)
        return .exit exitError
      | none =>
        let (left, cursor, displayed) ← env.showBatch through batch cursor displayed
        if left then return .leave cursor displayed
        else return .again records cursor displayed

def finish (through cursor displayed : Nat) : Program σ Fault (Option Int) := do
  env.println (.summary displayed cursor through)
  return some 0

/-- The loop `'read` for at most `rounds` rounds: the exit code, or nothing if it still runs. -/
def readLoop (through : Nat) : Nat → List AuditRecordV1 → Nat → Nat → Program σ Fault (Option Int)
  | 0, _, _, _ => return none
  | rounds + 1, records, cursor, displayed => do
    if cursor < through then
      match ← env.readRound through records cursor displayed with
      | .again records cursor displayed => readLoop through rounds records cursor displayed
      | .leave cursor displayed => env.finish through cursor displayed
      | .exit code => return some code
    else env.finish through cursor displayed

def readRecords (rounds cursor : Nat) : Program σ Fault (Option Int) := do
  match ← env.loadStats with
  | .error code => return some code
  | .ok stats =>
    env.readLoop (stats.nextSequence - 1) rounds (List.replicate batchSize .default) cursor 0

end Environment

/-! ### The log as it is -/

/-- The log, the events that other processes append before each of the next system calls, and the output. -/
structure Shell where
  ring : AuditRing
  incoming : List (List AuditEvent)
  output : List Line

abbrev ShellM := Program Shell Fault

def interleave : ShellM Unit := fun s => do
  let ring ← s.ring.pushAll (s.incoming.headD [])
  return ((), { s with ring, incoming := s.incoming.tail })

def println (line : Line) : ShellM Unit := modify fun s => { s with output := s.output ++ [line] }

def stat : ShellM (Int × IpcStatsV1) := do
  interleave
  let snapshot ← Program.lift (← Program.read fun s : Shell => s.ring.stats)
  return (0, snapshot.toRecord)

/-- `audit::read`: the records of the batch replace the first ones of the buffer. -/
def read (records : List AuditRecordV1) (afterSequence : Nat) : ShellM (Int × List AuditRecordV1) := do
  interleave
  let batch ← Program.lift (← Program.read fun s : Shell => s.ring.snapshot afterSequence records.length)
  return (intOfWord batch.len, batch.records ++ records.drop batch.len)

def shell : Environment Shell := ⟨stat, read, println⟩

def readRecords (rounds cursor : Nat) : ShellM (Option Int) := shell.readRecords rounds cursor

end Auditctl

end SecureIpc
