import SecureIpc.Task.Process

/-! Delivery of signals at the end of a trap. -/

namespace SecureIpc
open Lib

section
variable {P : Platform}

def currentAddSignal (signal : SignalFlags) : KernelM P Unit := do
  let id ← currentTask
  let task ← innerOf id
  putInner id { task with signals := task.signals ||| signal }

def checkSignalsErrorOfCurrent : KernelM P (Option (Int × String)) := do
  let id ← currentTask
  let task ← innerOf id
  return SignalFlags.checkError task.signals

def TaskControlBlock.kernelSignal (self : TaskControlBlock) (signal : SignalFlags) : TaskControlBlock :=
  if signal = SignalFlags.SIGSTOP then
    { self with frozen := true, signals := self.signals ^^^ SignalFlags.SIGSTOP }
  else if signal = SignalFlags.SIGCONT then
    if SignalFlags.contains self.signals SignalFlags.SIGCONT then
      { self with signals := self.signals ^^^ SignalFlags.SIGCONT, frozen := false }
    else self
  else { self with killed := true }

def callKernelSignalHandler (signal : SignalFlags) : KernelM P Unit := do
  let id ← currentTask
  let task ← innerOf id
  putInner id (task.kernelSignal signal)

/-- A signal without a handler stays pending. -/
def callUserSignalHandler (sig : Nat) (signal : SignalFlags) : KernelM P Unit := do
  let id ← currentTask
  let task ← innerOf id
  let action ← fault (getIndex task.signalActions sig)
  if action.handler ≠ 0 then
    let mem ← userMemory
    putInner id { task with
      handlingSig := sig, signals := task.signals ^^^ signal, trapCtxBackup := some (.load mem task.trapCxPpn) }
    setTrapCxWord id TrapContext.sepcWord action.handler
    setTrapCxWord id 10 sig
  else return ()

/-- Whether a pending signal is neither blocked by the mask nor by the handler that is running. -/
def TaskControlBlock.deliverable (self : TaskControlBlock) (signal : SignalFlags) : Except Fault Bool :=
  if SignalFlags.contains self.signals signal && !SignalFlags.contains self.signalMask signal then
    if self.handlingSig = -1 then .ok true
    else do
      let action ← getIndex self.signalActions (wordOfInt self.handlingSig)
      return !SignalFlags.contains action.mask signal
  else .ok false

def isKernelSignal (signal : SignalFlags) : Bool :=
  signal == SignalFlags.SIGKILL || signal == SignalFlags.SIGSTOP || signal == SignalFlags.SIGCONT ||
    signal == SignalFlags.SIGDEF

/-- The loop of `check_pending_signals` over the signals from `sig` on; the first deliverable user
signal ends it, with or without a handler. -/
def checkPendingSignalsFrom : Nat → Nat → KernelM P Unit
  | 0, _ => pure ()
  | count + 1, sig => do
    let id ← currentTask
    let task ← innerOf id
    let signal : SignalFlags := 1 <<< sig
    if ← fault (task.deliverable signal) then
      if isKernelSignal signal then
        callKernelSignalHandler signal
        checkPendingSignalsFrom count (sig + 1)
      else callUserSignalHandler sig signal
    else checkPendingSignalsFrom count (sig + 1)

def checkPendingSignals : KernelM P Unit := checkPendingSignalsFrom (maxSig + 1) 0

/-- One round of the loop of `handle_signals`; `false` when the task has been suspended in it. -/
def handleSignals : KernelM P Bool := do
  checkPendingSignals
  let id ← currentTask
  let task ← innerOf id
  if !task.frozen || task.killed then return true
  else
    suspendCurrentAndRunNext .frozen
    return false

def trapTail : KernelM P Unit := do
  if ← handleSignals then
    match ← checkSignalsErrorOfCurrent with
    | none => return ()
    | some (errno, _) => exitCurrentAndRunNext errno
  else return ()

end

end SecureIpc
