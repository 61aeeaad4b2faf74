import SecureIpc.Mm.UserSpace
import SecureIpc.Mm.UserBuffer
import SecureIpc.Trap

/-!
What the trace says about one task: the system call it is in, and what has happened since it entered
that call. A task suspended in a call has left everything as its call needs it when it goes on.
-/

namespace SecureIpc
open Lib

/-- The observations made while the task `id` was running. -/
def history (id : Nat) (trace : Trace) : List Observation :=
  trace.filterMap fun entry => if entry.1 = some id then some entry.2 else none

/-- The system call that is being made and what happened since, after one more observation. -/
def hear (call : Option (Entry × List Observation)) : Observation → Option (Entry × List Observation)
  | .entered entry => some (entry, [])
  | .returned _ => none
  | observation => call.map fun call => (call.1, call.2 ++ [observation])

/-- The system call that `id` has entered and not returned from, and what was observed since. -/
def openCall (id : Nat) (trace : Trace) : Option (Entry × List Observation) := (history id trace).foldl hear none

theorem openCall_own (id : Nat) (trace : Trace) (observation : Observation) :
    openCall id (trace ++ [(some id, observation)]) = hear (openCall id trace) observation := by
  simp [openCall, history, List.filterMap_append]

theorem openCall_other {id : Nat} {who : Option Nat} (different : who ≠ some id) (trace : Trace) (observation : Observation) :
    openCall id (trace ++ [(who, observation)]) = openCall id trace := by
  simp [openCall, history, List.filterMap_append, different]

/-! ### Audited calls -/

def recordedIn (since : List Observation) : List AuditEvent :=
  since.filterMap fun
    | .recorded event => some event
    | _ => none

/-- The operation and the amount under which a call is audited: the creation of a pipe, and reads and
writes on an endpoint of the matching direction. -/
def Entry.audited (self : Entry) : Option (IpcOperation × Nat) :=
  match self.syscall with
  | 59 => some (.pipeCreate, 1)
  | 63 =>
    match self.target with
    | some (.pipe endpoint) => if endpoint.readable then some (.pipeRead, self.args.2.2) else none
    | _ => none
  | 64 =>
    match self.target with
    | some (.pipe endpoint) => if endpoint.writable then some (.pipeWrite, self.args.2.2) else none
    | _ => none
  | _ => none

/-- Calls that are not audited: those on descriptors that are no pipes, `open`, `close`, `dup`, `fork`,
`exec` and `waitpid`, and the audit system calls if they succeed. -/
def Entry.unaudited (self : Entry) (value : Int) : Bool :=
  match self.syscall with
  | 24 | 56 | 57 | 220 | 221 | 260 => true
  | 63 | 64 => !self.target.any File.isPipe
  | 602 | 603 => decide (0 ≤ value)
  | _ => false

/-- The event says who made the call, what was asked for and what was returned. -/
structure Tells (event : AuditEvent) (entry : Entry) (operation : IpcOperation) (amount : Nat) (value : Int) : Prop where
  pid : event.subjectPid = entry.pid
  uid : event.subjectUid = entry.uid
  kind : event.operation = operationToAuditId operation
  requested : event.requestedAmount = amount
  outcome : 0 ≤ value ∧ event.errno = 0 ∧ (event.resultValue : Int) = (if operation = .pipeCreate then 1 else value) ∨
    value < 0 ∧ event.errno = -value ∧ event.resultValue = 0

/-- The transfers that have ended: whether it was a write, the pipe, the bytes of the buffer and how many of them were moved. -/
def endedIn (since : List Observation) : List (Bool × ResourceId × List UInt8 × Nat) :=
  since.filterMap fun
    | .ended write pipe buffer count _ => some (write, pipe, buffer, count)
    | _ => none

/-- A read or a write that returns `value` has ended one transfer between its buffer and its pipe, which has moved that
many bytes; without a transfer it has failed, or its buffer is empty. -/
def Transferred (entry : Entry) (since : List Observation) (operation : IpcOperation) (amount : Nat) (value : Int) : Prop :=
  endedIn since = [] ∧ (value < 0 ∨ amount = 0 ∧ value = 0) ∨
    ∃ (endpoint : Pipe) (buffer : List UInt8) (count : Nat), entry.target = some (.pipe endpoint) ∧ buffer.length = amount ∧
      value = count ∧ endedIn since = [(decide (operation = .pipeWrite), endpoint.object.id, buffer, count)]

/-- A call that returns `value` has been audited as it should be. -/
structure Answered (entry : Entry) (since : List Observation) (value : Int) : Prop where
  audited : ∀ operation amount, entry.audited = some (operation, amount) →
    ∃ event, recordedIn since = [event] ∧ Tells event entry operation amount value
  unaudited : entry.unaudited value = true → recordedIn since = []
  transferred : ∀ operation amount, entry.audited = some (operation, amount) → operation ≠ .pipeCreate →
    Transferred entry since operation amount value

theorem Entry.unaudited_of_audited {entry : Entry} {request : IpcOperation × Nat} (audited : entry.audited = some request)
    (value : Int) : entry.unaudited value = false := by
  unfold Entry.audited at audited
  split at audited
  · rename_i number
    simp [Entry.unaudited, number]
  · rename_i number
    split at audited
    · rename_i endpoint target
      simp [Entry.unaudited, number, target, File.isPipe]
    · cases audited
  · rename_i number
    split at audited
    · rename_i endpoint target
      simp [Entry.unaudited, number, target, File.isPipe]
    · cases audited
  · cases audited

/-- The request is made by the caller, and is what the call is audited as. -/
structure Requested (entry : Entry) (request : IpcRequest) : Prop where
  audited : entry.audited = some (request.operation, request.amount)
  pid : request.subject.pid = entry.pid
  uid : request.subject.uid = entry.uid
  target : request.operation ≠ .pipeCreate → ∃ endpoint, entry.target = some (.pipe endpoint) ∧ endpoint.object = request.object

theorem Requested.operation {entry : Entry} {request : IpcRequest} (requested : Requested entry request) :
    request.operation = .pipeCreate ∨ request.operation = .pipeRead ∨ request.operation = .pipeWrite := by
  have audited := requested.audited
  unfold Entry.audited at audited
  split at audited
  · exact Or.inl (Prod.mk.inj (Option.some.inj audited)).1.symm
  · split at audited
    · split at audited
      · exact Or.inr (Or.inl (Prod.mk.inj (Option.some.inj audited)).1.symm)
      · cases audited
    · cases audited
  · split at audited
    · split at audited
      · exact Or.inr (Or.inr (Prod.mk.inj (Option.some.inj audited)).1.symm)
      · cases audited
    · cases audited
  · cases audited

/-! ### Transfers -/

/-- The byte that an observation says was put into the pipe, or taken out of it. -/
def Observation.moved (write : Bool) (pipe : ResourceId) : Observation → Option UInt8
  | .stored other byte _ => if write = true ∧ other = pipe then some byte else none
  | .took other byte _ => if write = false ∧ other = pipe then some byte else none
  | _ => none

/-- What has been observed since the call was entered is a transfer that has moved the first `count`
bytes of the buffer, in order, and has not touched the rest. -/
def Moves (write : Bool) (pipe : ResourceId) (since : List Observation) (buffer : List UInt8) (count : Nat) : Prop :=
  ∃ start moved, since = .began write pipe start :: moved ∧
    moved.map (Observation.moved write pipe) = (buffer.take count).map some ∧ buffer.drop count = start.drop count ∧
    (write = true → buffer = start)

/-- All that a transfer leaves in the trace is its beginning and the bytes. -/
theorem Moves.filterMap_eq_nil {β : Type} {f : Observation → Option β} {write : Bool} {pipe : ResourceId} {since : List Observation}
    {buffer : List UInt8} {count : Nat} (moves : Moves write pipe since buffer count) (began : ∀ write pipe buffer, f (.began write pipe buffer) = none)
    (stored : ∀ pipe byte before, f (.stored pipe byte before) = none) (took : ∀ pipe byte before, f (.took pipe byte before) = none) :
    since.filterMap f = [] := by
  obtain ⟨start, moved, rfl, bytes, _⟩ := moves
  refine List.filterMap_eq_nil_iff.mpr fun observation member => ?_
  rcases List.mem_cons.mp member with rfl | member
  · exact began _ _ _
  · have image := List.mem_map_of_mem (f := Observation.moved write pipe) member
    rw [bytes] at image
    obtain ⟨byte, _, same⟩ := List.mem_map.mp image
    cases observation with
    | stored => exact stored _ _ _
    | took => exact took _ _ _
    | _ => cases same

theorem Moves.recorded {write : Bool} {pipe : ResourceId} {since : List Observation} {buffer : List UInt8} {count : Nat}
    (moves : Moves write pipe since buffer count) : recordedIn since = [] :=
  moves.filterMap_eq_nil (fun _ _ _ => rfl) (fun _ _ _ => rfl) fun _ _ _ => rfl

theorem Moves.ended {write : Bool} {pipe : ResourceId} {since : List Observation} {buffer : List UInt8} {count : Nat}
    (moves : Moves write pipe since buffer count) : endedIn since = [] :=
  moves.filterMap_eq_nil (fun _ _ _ => rfl) (fun _ _ _ => rfl) fun _ _ _ => rfl

/-- The permit of a transfer is for the pipe and for the whole buffer. -/
structure PipeCall.Asks (call : PipeCall) (write : Bool) : Prop where
  object : call.permit.request.object = call.object
  amount : call.permit.request.amount = call.want
  operation : call.permit.request.operation = if write then .pipeWrite else .pipeRead

theorem PipeCall.Asks.moves {call : PipeCall} {write : Bool} (asks : call.Asks write) : call.permit.request.operation ≠ .pipeCreate := by
  rw [asks.operation]
  cases write <;> exact nofun

section
variable {P : Platform} {k k' : Kernel P} {id : Nat}

theorem openCall_observe (current : k.current = some id) (observation : Observation) :
    openCall id (k.observe observation).trace = hear (openCall id k.trace) observation := by
  rw [Kernel.observe, current]
  exact openCall_own id k.trace observation

/-- How a transfer stands between two bytes: `done` bytes have been moved since the call was entered,
and the iterator is behind them. -/
structure Carries (k : Kernel P) (id : Nat) (write : Bool) (call : PipeCall) : Prop where
  opened : ∃ entry since, openCall id k.trace = some (entry, since) ∧ Requested entry call.permit.request ∧
    Moves write call.object.id since (call.bytes k.mm.mem) call.done
  placed : call.iter.Placed
  remaining : call.iter.remaining = call.addrs.drop call.done
  distinct : call.addrs.Nodup
  want : call.addrs.length = call.want
  bound : call.done ≤ call.want
  asks : call.Asks write
  small : call.want ≤ 2 ^ 38

/-- A transfer that has returned `count`: its system call has recorded nothing yet. -/
def Settled (k : Kernel P) (id : Nat) (request : IpcRequest) (count : Nat) : Prop :=
  count ≤ 2 ^ 38 ∧ ∃ entry since, openCall id k.trace = some (entry, since) ∧ Requested entry request ∧ recordedIn since = [] ∧
    Transferred entry since request.operation request.amount count

/-- The buffer that a suspended call still uses lies in frames its program can reach. -/
def MemorySet.HoldsPoint (self : MemorySet) : KernelPoint → Prop
  | .pipeRead call | .pipeWrite call => self.Covers call.iter.buffers
  | .stdinRead buf => self.Covers buf.buffers
  | _ => True

/-- What a task that is suspended at `point` has done since it entered its system call. -/
def Flight (k : Kernel P) (id : Nat) : KernelPoint → Prop
  | .pipeRead call => Carries k id false call ∧ call.done < call.want
  | .pipeWrite call => Carries k id true call ∧ call.done < call.want
  | .yielded => ∃ entry, openCall id k.trace = some (entry, []) ∧ entry.audited = none
  | .stdinRead buf => buf.len = 1 ∧ ∃ entry, openCall id k.trace = some (entry, []) ∧ entry.audited = none
  | _ => True

/-- Nobody else changes how a transfer stands, as long as its buffer stays as it is. -/
theorem Carries.keep {write : Bool} {call : PipeCall} (carries : Carries k id write call)
    (trace : openCall id k'.trace = openCall id k.trace) (memory : ∀ x ∈ call.addrs, k'.mm.mem x = k.mm.mem x) :
    Carries k' id write call := by
  obtain ⟨⟨entry, since, opened, requested, moves⟩, placed, remaining, distinct, want, bound, other, small⟩ := carries
  have bytes : call.bytes k'.mm.mem = call.bytes k.mm.mem := List.map_congr_left memory
  refine ⟨⟨entry, since, trace.trans opened, requested, ?_⟩, placed, remaining, distinct, want, bound, other, small⟩
  rw [bytes]
  exact moves

theorem Flight.keep {point : KernelPoint} {space : MemorySet} (flight : Flight k id point)
    (trace : openCall id k'.trace = openCall id k.trace)
    (inside : space.HoldsPoint point)
    (memory : ∀ x, x / 4096 ∈ space.userFrames → k'.mm.mem x = k.mm.mem x) : Flight k' id point := by
  have covered : ∀ call : PipeCall, space.Covers call.iter.buffers → ∀ x ∈ call.addrs, k'.mm.mem x = k.mm.mem x := by
    intro call covers x member
    obtain ⟨slice, part, here⟩ := List.mem_flatMap.mp member
    exact memory x ((covers slice part).2 x here)
  cases point with
  | pipeRead call => exact ⟨flight.1.keep trace (covered call inside), flight.2⟩
  | pipeWrite call => exact ⟨flight.1.keep trace (covered call inside), flight.2⟩
  | yielded =>
    unfold Flight at flight ⊢
    rw [trace]
    exact flight
  | stdinRead buf =>
    unfold Flight at flight ⊢
    rw [trace]
    exact flight
  | user | preempted | frozen => trivial

end

end SecureIpc
