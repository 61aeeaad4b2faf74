import SecureIpc.Security.Api

/-! Per-process accounting of descriptors and pipe endpoints. -/

namespace SecureIpc

def maxOpenFiles : Nat := 32

def maxOpenPipeFds : Nat := 16

def pipeEndpointsPerPipe : Nat := 2

def debugAssert (condition : Bool) : Except Halt Unit :=
  if condition then .ok () else .error .quotaAssert

structure QuotaState where
  openFiles : Nat
  openPipes : Nat
  pipeFdMask : BitVec 64
  deriving DecidableEq, Repr

namespace QuotaState

/-- The initial process starts with stdin, stdout and stderr. -/
def initial : QuotaState := ⟨3, 0, 0⟩

def forkFrom (parent : QuotaState) : QuotaState := parent

def reserveFiles (self : QuotaState) (amount : Nat) : IpcResult QuotaState :=
  match checkedAdd self.openFiles amount with
  | none => .error .tooManyFiles
  | some next =>
    if maxOpenFiles < next then .error .tooManyFiles
    else .ok { self with openFiles := next }

/-- Both limits are checked before either counter changes. -/
def reservePipeFds (self : QuotaState) (amount : Nat) : IpcResult QuotaState :=
  match checkedAdd self.openFiles amount with
  | none => .error .tooManyFiles
  | some nextFiles =>
    if maxOpenFiles < nextFiles then .error .tooManyFiles
    else match checkedAdd self.openPipes amount with
      | none => .error .resourceExhausted
      | some nextPipes =>
        if maxOpenPipeFds < nextPipes then .error .resourceExhausted
        else .ok { self with openFiles := nextFiles, openPipes := nextPipes }

/-- Rolls back endpoints whose descriptor numbers are not registered yet. -/
def releasePipeFds (self : QuotaState) (amount : Nat) : Except Halt QuotaState := do
  debugAssert (amount ≤ self.openFiles)
  debugAssert (amount ≤ self.openPipes)
  return { self with openFiles := self.openFiles - amount, openPipes := self.openPipes - amount }

def registerPipeFd (self : QuotaState) (fd : Nat) : Except Halt QuotaState := do
  debugAssert (fd < maxOpenFiles)
  debugAssert (fd < 64)
  return if fd < 64 then { self with pipeFdMask := self.pipeFdMask ||| (1 <<< fd) } else self

def isPipeFd (self : QuotaState) (fd : Nat) : Bool :=
  if 64 ≤ fd then false else self.pipeFdMask &&& (1 <<< fd) != 0

def reserveDupFd (self : QuotaState) (sourceFd : Nat) : IpcResult (QuotaState × Bool) :=
  if self.isPipeFd sourceFd then do return (← self.reservePipeFds 1, true)
  else do return (← self.reserveFiles 1, false)

/-- Releases one committed descriptor; a pipe endpoint counts twice. -/
def releaseFd (self : QuotaState) (fd : Nat) : Except Halt QuotaState := do
  let wasPipe := self.isPipeFd fd
  let pipeFdMask := if fd < 64 then self.pipeFdMask &&& ~~~((1 : BitVec 64) <<< fd) else self.pipeFdMask
  debugAssert (0 < self.openFiles)
  if wasPipe then
    debugAssert (0 < self.openPipes)
    return { pipeFdMask, openFiles := self.openFiles - 1, openPipes := self.openPipes - 1 }
  else
    return { self with pipeFdMask, openFiles := self.openFiles - 1 }

end QuotaState

inductive QuotaReservationKind where
  | none | pipeFds
  deriving DecidableEq, Repr

structure QuotaReservation where
  kind : QuotaReservationKind
  amount : Nat
  deriving DecidableEq, Repr

namespace Quota

def reserve (state : QuotaState) (request : IpcRequest) : IpcResult (QuotaState × QuotaReservation) :=
  match request.operation with
  | .pipeCreate => do return (← state.reservePipeFds pipeEndpointsPerPipe, ⟨.pipeFds, pipeEndpointsPerPipe⟩)
  | _ => .ok (state, ⟨.none, 0⟩)

/-- Keeps the charge on success and rolls it back on failure. -/
def finish (state : QuotaState) (reservation : QuotaReservation) (success : Bool) : Except Halt QuotaState :=
  if success then .ok state
  else match reservation.kind with
    | .none => .ok state
    | .pipeFds => state.releasePipeFds reservation.amount

end Quota

structure ProcessSecurityState where
  credentials : Credentials
  quota : QuotaState
  deriving DecidableEq, Repr

namespace ProcessSecurityState

def initial : ProcessSecurityState := ⟨.initial, .initial⟩

def forkFrom (parent : ProcessSecurityState) : ProcessSecurityState :=
  ⟨.forkFrom parent.credentials, .forkFrom parent.quota⟩

def reserveFileFd (state : ProcessSecurityState) : IpcResult ProcessSecurityState := do
  return { state with quota := ← state.quota.reserveFiles 1 }

def reserveDupFd (state : ProcessSecurityState) (sourceFd : Nat) : IpcResult (ProcessSecurityState × Bool) := do
  let (quota, isPipe) ← state.quota.reserveDupFd sourceFd
  return ({ state with quota }, isPipe)

def registerPipeFd (state : ProcessSecurityState) (fd : Nat) : Except Halt ProcessSecurityState := do
  return { state with quota := ← state.quota.registerPipeFd fd }

def releaseFd (state : ProcessSecurityState) (fd : Nat) : Except Halt ProcessSecurityState := do
  return { state with quota := ← state.quota.releaseFd fd }

end ProcessSecurityState

structure IpcPermit where
  request : IpcRequest
  reservation : QuotaReservation
  deriving DecidableEq, Repr

end SecureIpc
