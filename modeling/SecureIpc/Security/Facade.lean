import SecureIpc.Kernel

/-! The audit log as the kernel uses it, and the facade that ties policy, quota and audit together. -/

namespace SecureIpc
open Lib

section
variable {P : Platform}

namespace Audit

def push (event : AuditEvent) : SystemM P Unit := fun s =>
  match s.auditRing.push event with
  | .ok auditRing => .ok ((), { kernel := s.kernel.observe (.recorded event), auditRing })
  | .error error => .error (.fault error)

def getTimeMs : KernelM P Nat := Program.read Kernel.now

/-- A successful read of the log is not recorded. -/
def record (request : IpcRequest) (outcome : IpcResult Nat) : SystemM P Unit := do
  if request.operation = .auditRead ∧ outcome.isOk then return ()
  else
    let timestampMs ← kernel getTimeMs
    push (.fromRequest request outcome timestampMs)

def recordControlFailure (operation : AuditControlOperation) (subject : IpcSubject) (requestedAmount : Nat)
    (error : IpcError) : SystemM P Unit := do
  let timestampMs ← kernel getTimeMs
  push (.fromControlFailure operation subject requestedAmount error timestampMs)

def snapshot (afterSequence requestedCapacity : Nat) : SystemM P AuditBatch := do
  let ring ← Program.read System.auditRing
  Program.lift ((ring.snapshot afterSequence requestedCapacity).mapError .fault)

def stats : SystemM P AuditStatsSnapshot := do
  let ring ← Program.read System.auditRing
  Program.lift (ring.stats.mapError .fault)

end Audit

/-- Authorization and quota; a request that fails is recorded and leaves the state unchanged. -/
def preflight (state : ProcessSecurityState) (request : IpcRequest) :
    SystemM P (IpcResult (IpcPermit × ProcessSecurityState)) :=
  match authorize request with
  | .error error => do
    Audit.record request (.error error)
    return .error error
  | .ok () =>
    match Quota.reserve state.quota request with
    | .error error => do
      Audit.record request (.error error)
      return .error error
    | .ok (quota, reservation) => return .ok (⟨request, reservation⟩, { state with quota })

def complete (state : ProcessSecurityState) (permit : IpcPermit) (outcome : IpcResult Nat) :
    SystemM P (ProcessSecurityState × IpcResult Nat) := do
  let quota ← Program.lift (Quota.finish state.quota permit.reservation outcome.isOk)
  Audit.record permit.request outcome
  return ({ state with quota }, outcome)

def recordFailure (request : IpcRequest) (error : IpcError) : SystemM P Unit :=
  Audit.record request (.error error)

def resultToRet : IpcResult Nat → Int
  | .ok value => intOfWord value
  | .error error => ipcErrorToRet error

end

end SecureIpc
