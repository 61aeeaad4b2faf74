import SecureIpc.Run.Trace

/-!
Pipes as byte streams over whole runs. The bytes that all readers have taken and those still in the
ring are the bytes that all writers have stored; a transfer that returns has moved what its buffer
says; and a read is short only at the end of the stream.
-/

namespace SecureIpc
open Lib

/-- The bytes put into the pipe, or those taken out of it, in the order of the run. -/
def movedBy (write : Bool) (pipe : ResourceId) (trace : Trace) : List UInt8 :=
  trace.filterMap fun entry => entry.2.moved write pipe

theorem movedBy_concat (write : Bool) (pipe : ResourceId) (trace : Trace) (who : Option Nat) (observation : Observation) :
    movedBy write pipe (trace ++ [(who, observation)]) = movedBy write pipe trace ++ (observation.moved write pipe).toList := by
  unfold movedBy
  rw [List.filterMap_append]
  cases moved : observation.moved write pipe <;> simp [moved]

section
variable {P : Platform} {k k' : Kernel P} {s : System P} {pipe : ResourceId}

/-! ### First in, first out -/

/-- What was taken and what is in the ring is what was stored, and nothing was moved before a pipe exists. -/
structure Streams (k : Kernel P) : Prop where
  contents : ∀ {pipe ring}, k.pipes pipe = some ring →
    movedBy false pipe k.trace ++ ring.contents = movedBy true pipe k.trace
  unborn : ∀ {pipe}, k.pipes pipe = none → ∀ write, movedBy write pipe k.trace = []

/-- Whatever moves no byte keeps the streams. -/
theorem Streams.quiet (streams : Streams k) (pipes : k'.pipes = k.pipes)
    (trace : ∀ write pipe, movedBy write pipe k'.trace = movedBy write pipe k.trace) : Streams k' := by
  constructor
  · intro pipe ring known
    rw [trace, trace]
    exact streams.contents (pipes ▸ known)
  · intro pipe absent write
    rw [trace]
    exact streams.unborn (pipes ▸ absent) write

theorem Streams.observe {observation : Observation} (streams : Streams k)
    (still : ∀ write pipe, observation.moved write pipe = none) : Streams (k.observe observation) := by
  refine streams.quiet rfl fun write pipe => ?_
  rw [Kernel.observe, movedBy_concat, still]
  exact List.append_nil _

/-- A byte moved through one pipe leaves the others alone. -/
theorem Streams.move {observation : Observation} {who : Option Nat} (streams : Streams k) (pipe : ResourceId)
    (after : PipeRingBuffer) (pipes : k'.pipes = Kernel.set k.pipes pipe (some after)) (trace : k'.trace = k.trace ++ [(who, observation)])
    (only : ∀ write other, other ≠ pipe → observation.moved write other = none)
    (here : movedBy false pipe k'.trace ++ after.contents = movedBy true pipe k'.trace) : Streams k' := by
  have others : ∀ write other, other ≠ pipe → movedBy write other k'.trace = movedBy write other k.trace := by
    intro write other different
    rw [trace, movedBy_concat, only write other different]
    exact List.append_nil _
  constructor
  · intro other ring known
    rw [pipes] at known
    rcases Kernel.set_eq_some.mp known with ⟨rfl, same⟩ | ⟨different, old⟩
    · obtain rfl := Option.some.inj same
      exact here
    · rw [others _ _ different, others _ _ different]
      exact streams.contents old
  · intro other absent write
    rw [pipes] at absent
    by_cases same : other = pipe
    · rw [same] at absent
      exact absurd absent (Kernel.set_some_same k.pipes pipe after)
    · rw [Kernel.set_other same] at absent
      rw [others _ _ same]
      exact streams.unborn absent write

theorem Act.streams (act : Act k k') (sound : Sound k) (streams : Streams k) : Streams k' := by
  cases act with
  | began | ended | exit | fork | reap =>
    refine streams.quiet rfl fun write pipe => (movedBy_concat write pipe k.trace k.current _).trans ?_
    exact List.append_nil _
  | @take id task pipe ring after byte ref known data run =>
    obtain ⟨_, _, read, _, _, first, _⟩ := (sound.pipes.rings known).1.readByte data
    obtain ⟨rfl, rfl⟩ := Prod.mk.inj (Except.ok.inj (run.symm.trans read))
    refine streams.move pipe after rfl rfl ?_ ?_
    · intro write other different
      simp [Observation.moved, Ne.symm different]
    · have before := streams.contents known
      rw [first] at before
      show movedBy false pipe (k.trace ++ [(k.current, _)]) ++ _ = movedBy true pipe (k.trace ++ [(k.current, _)])
      rw [movedBy_concat, movedBy_concat, ← before]
      simp [Observation.moved]
  | @store pipe ring after ref known room run =>
    obtain ⟨_, written, _, _, last, _⟩ := (sound.pipes.rings known).1.writeByte room (k.mm.mem ref)
    obtain rfl := Except.ok.inj (run.symm.trans written)
    refine streams.move pipe after rfl rfl ?_ ?_
    · intro write other different
      simp [Observation.moved, Ne.symm different]
    · have before := streams.contents known
      show movedBy false pipe (k.trace ++ [(k.current, _)]) ++ _ = movedBy true pipe (k.trace ++ [(k.current, _)])
      rw [movedBy_concat, movedBy_concat, ← before, last]
      simp [Observation.moved]
  | makePipe room =>
    have unused : k.pipes k.nextPipeId = none := sound.pipes.fresh (Nat.le_refl _)
    constructor
    · intro pipe ring known
      rcases Kernel.set_eq_some.mp known with ⟨rfl, same⟩ | ⟨_, old⟩
      · obtain rfl := Option.some.inj same
        have empty := streams.unborn unused
        exact (congrArg (· ++ _) (empty false)).trans (empty true).symm
      · exact streams.contents old
    · intro pipe absent
      have different : pipe ≠ k.nextPipeId := by
        rintro rfl
        exact Kernel.set_some_same _ _ _ absent
      exact streams.unborn ((Kernel.set_other different).symm.trans absent)
  | _ => exact ⟨streams.contents, streams.unborn⟩

theorem streamsInv : Invariant (P := P) Streams where
  act act sound streams := act.streams sound streams
  mark marked streams := by
    obtain ⟨_⟩ := marked
    exact ⟨streams.contents, streams.unborn⟩
  note noted streams := by
    refine streams.observe fun write pipe => ?_
    cases noted <;> rfl
  resume resumed _ streams := by
    obtain ⟨_, _, _⟩ := resumed
    exact ⟨streams.contents, streams.unborn⟩

theorem Booted.streams (booted : Booted k) : Streams k := by
  constructor
  · intro pipe ring known
    rw [booted.pipes] at known
    cases known
  · intro pipe _ write
    rw [booted.trace]
    rfl

/-! ### What a transfer that returns has done -/

/-- No byte is stored in a full ring or taken from an empty one. A transfer that returns has moved
the first `count` bytes of its buffer since its system call was entered, a write all of them, and that
count is what the system call returns. -/
def Orderly (before : Trace) (who : Option Nat) : Observation → Prop
  | .stored _ _ status => status ≠ .full
  | .took _ _ status => status ≠ .empty
  | .ended write pipe buffer count _ => ∃ id entry since, who = some id ∧ openCall id before = some (entry, since) ∧
      Moves write pipe since buffer count ∧ count ≤ buffer.length ∧ (write = true → count = buffer.length)
  | .returned value => ∃ id entry since, who = some id ∧ openCall id before = some (entry, since) ∧
      ∀ operation amount, entry.audited = some (operation, amount) → operation ≠ .pipeCreate → Transferred entry since operation amount value
  | _ => True

theorem Act.orderly (act : Act k k') (sound : Sound k) : k'.trace = k.trace ∨
    ∃ observation, k'.trace = k.trace ++ [(k.current, observation)] ∧ Orderly k.trace k.current observation := by
  cases act with
  | began | exit | fork | reap => exact Or.inr ⟨_, rfl, trivial⟩
  | @ended id write call current carries finished =>
    obtain ⟨entry, since, opened, _, moves⟩ := carries.opened
    refine Or.inr ⟨_, rfl, id, entry, since, current, opened, moves, ?_, fun wrote => ?_⟩
    · rw [carries.bytes_length]
      exact carries.bound
    · rw [carries.bytes_length]
      rcases finished with all | ⟨reads, _⟩
      · exact all
      · rw [wrote] at reads
        cases reads
  | @take id task pipe ring after byte ref known data run =>
    obtain ⟨_, _, zero, _⟩ := (sound.pipes.rings known).1.availableRead_eq
    exact Or.inr ⟨_, rfl, fun empty => data (zero.mpr empty)⟩
  | @store pipe ring after ref known room run =>
    refine Or.inr ⟨_, rfl, fun full => room ?_⟩
    rw [PipeRingBuffer.availableWrite, if_pos full]
  | _ => exact Or.inl rfl

/-! ### End of file -/

/-- A read that returns less than it was asked for finds no write end and nothing left to read. -/
def ShortAtEnd (before : Trace) (_who : Option Nat) : Observation → Prop
  | .ended false pipe buffer count writers =>
    count < buffer.length → writers = false ∧ movedBy false pipe before = movedBy true pipe before
  | _ => True

theorem Streams.empty_iff (streams : Streams k) {ring : PipeRingBuffer} (known : k.pipes pipe = some ring) :
    ring.availableRead = 0 ↔ movedBy false pipe k.trace = movedBy true pipe k.trace := by
  have stream := streams.contents known
  rw [← stream, List.self_eq_append_right, ← List.length_eq_zero_iff, PipeRingBuffer.contents_length]

theorem Act.shortAtEnd (act : Act k k') (streams : Streams k) : k'.trace = k.trace ∨
    ∃ observation, k'.trace = k.trace ++ [(k.current, observation)] ∧ ShortAtEnd k.trace k.current observation := by
  cases act with
  | began | exit | fork | reap | take | store => exact Or.inr ⟨_, rfl, trivial⟩
  | @ended id write call current carries finished =>
    refine Or.inr ⟨_, rfl, ?_⟩
    cases write with
    | true => trivial
    | false =>
      intro short
      rw [carries.bytes_length] at short
      rcases finished with all | ⟨_, closed, ring, known, empty⟩
      · omega
      · exact ⟨closed, (streams.empty_iff known).mp empty⟩
  | _ => exact Or.inl rfl

/-- With no write end and nothing to read, the loop of `Pipe::read` returns what it has. -/
theorem pipeReadLoop_closed (sound : PipesSound k) {ring : PipeRingBuffer} {call : PipeCall} (fuel : Nat)
    (known : k.pipes call.object.id = some ring) (empty : ring.availableRead = 0)
    (closed : k.holdsWriteEnd call.object.id = false) :
    ∃ k', pipeReadLoop (fuel + 1) call k = .ok (some call.done, k') := by
  have ends : wp (pipeReadLoop (fuel + 1) call) (fun r _ => r = some call.done) (fun _ => False) k := by
    simp only [pipeReadLoop, wp_bind, wp_pipeBuffer known, empty, if_true, allWriteEndsClosed_wp (sound.rings known).2, closed,
      Bool.not_false]
    exact rfl
  obtain ⟨r, k', run, rfl⟩ := wp_returns ends
  exact ⟨k', run⟩

/-! ### What the calls return -/

/-- `Pipe::read` or `Pipe::write`, from its beginning or from where it was suspended, returns `count`. -/
inductive Returns (k : Kernel P) : Bool → PipeCall → Nat → Kernel P → Prop where
  | read {endpoint : Pipe} {buf : UserBuffer} {permit : IpcPermit} {count : Nat} {k' : Kernel P}
    (run : pipeRead endpoint buf permit k = .ok (some count, k')) : Returns k false (.start endpoint buf permit) count k'
  | write {endpoint : Pipe} {buf : UserBuffer} {permit : IpcPermit} {count : Nat} {k' : Kernel P}
    (run : pipeWrite endpoint buf permit k = .ok (some count, k')) : Returns k true (.start endpoint buf permit) count k'
  | readLoop {call : PipeCall} {count : Nat} {k' : Kernel P} (run : pipeReadLoop pipeLoopBound call k = .ok (some count, k')) :
    Returns k false call count k'
  | writeLoop {call : PipeCall} {count : Nat} {k' : Kernel P} (run : pipeWriteLoop pipeLoopBound call k = .ok (some count, k')) :
    Returns k true call count k'

def EndedWith (write : Bool) (call : PipeCall) (count : Nat) (k : Kernel P) : Prop :=
  ∃ before, k.trace = before ++ [(k.current, .ended write call.object.id (call.bytes k.mm.mem) count (k.holdsWriteEnd call.object.id))]

theorem PipeCall.Later.ends {write : Bool} {call later : PipeCall} {count : Nat} (stage : call.Later later) (ends : EndedWith write later count k) :
    EndedWith write call count k := by
  have bytes : later.bytes k.mm.mem = call.bytes k.mm.mem := by
    rw [PipeCall.bytes, PipeCall.addrs, stage.buffers]
    rfl
  unfold EndedWith at ends ⊢
  rwa [bytes, stage.object] at ends

theorem transferPass_later {transfer : ResourceId → Nat → KernelM P Unit} {rounds : Nat} {call : PipeCall} :
    wp (transferPass transfer rounds call) (fun r _ => call.Later r.1) (fun _ => True) k := by
  induction rounds generalizing call k with
  | zero => exact ⟨rfl, rfl, rfl, rfl⟩
  | succ rounds ih =>
    unfold transferPass
    apply wp_bind.mpr
    refine wp_fault (fun next run => ?_) fun _ => trivial
    obtain ⟨ref, iter⟩ := next
    have buffers := (next_ok run).1
    cases ref with
    | none => exact ⟨rfl, rfl, rfl, buffers⟩
    | some ref =>
      apply wp_bind.mpr
      refine wp_intro (fun _ k₁ _ => ?_) fun _ _ => trivial
      dsimp only
      split
      · exact ⟨rfl, rfl, rfl, buffers⟩
      · refine wp_mono ih ?_ fun _ _ => trivial
        rintro result _ ⟨object, want, permit, same⟩
        exact ⟨object, want, permit, same.trans buffers⟩

theorem endTransfer_ends {write : Bool} {call : PipeCall} :
    wp (endTransfer write call) (fun r k' => ∀ count, r = some count → EndedWith write call count k') (fun _ => True) k := by
  intro count same
  obtain rfl := Option.some.inj same
  exact ⟨k.trace, rfl⟩

/-- After a pass the call ends, or its loop goes on. -/
theorem PipeCall.Later.round {write returned : Bool} {call later : PipeCall} {loop : PipeCall → KernelM P (Option Nat)} (stage : call.Later later)
    (goesOn : wp (loop later) (fun r k' => ∀ count, r = some count → EndedWith write later count k') (fun _ => True) k) :
    wp (if returned then endTransfer write later else loop later)
      (fun r k' => ∀ count, r = some count → EndedWith write call count k') (fun _ => True) k := by
  have back : wp (if returned then endTransfer write later else loop later)
      (fun r k' => ∀ count, r = some count → EndedWith write later count k') (fun _ => True) k := by
    cases returned with
    | true => exact endTransfer_ends
    | false => exact goesOn
  exact wp_mono back (fun r k' ends count same => stage.ends (ends count same)) fun _ _ => trivial

theorem pipeReadLoop_ends {fuel : Nat} (call : PipeCall) :
    wp (pipeReadLoop fuel call) (fun r k' => ∀ count, r = some count → EndedWith false call count k') (fun _ => True) k := by
  induction fuel generalizing call k with
  | zero => trivial
  | succ fuel ih =>
    apply wp_bind.mpr
    refine wp_intro (fun ring k₁ _ => ?_) fun _ _ => trivial
    split
    · apply wp_bind.mpr
      refine wp_intro (fun closed k₂ _ => ?_) fun _ _ => trivial
      split
      · exact endTransfer_ends
      · apply wp_bind.mpr
        exact wp_intro (fun _ _ _ => nofun) fun _ _ => trivial
    · apply wp_bind.mpr
      refine wp_mono transferPass_later ?_ fun _ _ => trivial
      rintro ⟨later, returned⟩ k₂ stage
      exact stage.round (ih later)

theorem pipeWriteLoop_ends {fuel : Nat} (call : PipeCall) :
    wp (pipeWriteLoop fuel call) (fun r k' => ∀ count, r = some count → EndedWith true call count k') (fun _ => True) k := by
  induction fuel generalizing call k with
  | zero => trivial
  | succ fuel ih =>
    apply wp_bind.mpr
    refine wp_intro (fun ring k₁ _ => ?_) fun _ _ => trivial
    split
    · apply wp_bind.mpr
      exact wp_intro (fun _ _ _ => nofun) fun _ _ => trivial
    · apply wp_bind.mpr
      refine wp_mono transferPass_later ?_ fun _ _ => trivial
      rintro ⟨later, returned⟩ k₂ stage
      exact stage.round (ih later)

/-- A call that returns `count` says so at the end of the trace. -/
theorem Returns.ends {write : Bool} {call : PipeCall} {count : Nat} (returns : Returns k write call count k') : EndedWith write call count k' := by
  cases returns with
  | @read endpoint buf permit _ _ run =>
    unfold pipeRead at run
    split at run
    · exact wp_ok (@pipeReadLoop_ends P _ pipeLoopBound (.start endpoint buf permit)) run count rfl
    · cases run
  | @write endpoint buf permit _ _ run =>
    unfold pipeWrite at run
    split at run
    · exact wp_ok (@pipeWriteLoop_ends P _ pipeLoopBound (.start endpoint buf permit)) run count rfl
    · cases run
  | readLoop run => exact wp_ok (pipeReadLoop_ends call) run count rfl
  | writeLoop run => exact wp_ok (pipeWriteLoop_ends call) run count rfl

/-- The call has ended with `count`: since its system call was entered it has moved the first `count` bytes of its buffer, a write
all of them. -/
def Carried (write : Bool) (call : PipeCall) (count : Nat) (k : Kernel P) : Prop :=
  ∃ id entry since writers, k.current = some id ∧
    openCall id k.trace = some (entry, since ++ [.ended write call.object.id (call.bytes k.mm.mem) count writers]) ∧
    Moves write call.object.id since (call.bytes k.mm.mem) count ∧ count ≤ (call.bytes k.mm.mem).length ∧
    (write = true → count = (call.bytes k.mm.mem).length)

theorem EndedWith.carried {write : Bool} {call : PipeCall} {count : Nat} (ended : EndedWith write call count k)
    (orderly : Along Orderly k.trace) : Carried write call count k := by
  obtain ⟨before, last⟩ := ended
  obtain ⟨id, entry, since, current, opened, moves, bound, whole⟩ := orderly before _ _ [] last
  refine ⟨id, entry, since, k.holdsWriteEnd call.object.id, current, ?_, moves, bound, whole⟩
  rw [last, current, openCall_own, opened]
  rfl

theorem EndedWith.consumed {call : PipeCall} {count : Nat} (ended : EndedWith false call count k) (along : Along ShortAtEnd k.trace)
    (short : count < (call.bytes k.mm.mem).length) :
    k.holdsWriteEnd call.object.id = false ∧ movedBy false call.object.id k.trace = movedBy true call.object.id k.trace := by
  obtain ⟨before, last⟩ := ended
  obtain ⟨closed, consumed⟩ := along before _ _ [] last short
  refine ⟨closed, ?_⟩
  rw [last, movedBy_concat, movedBy_concat, consumed]
  rfl

/-! ### Main results -/

/-- Every pipe is a stream of bytes, first in, first out; and what a read or a write returns is the number of bytes it has moved. -/
theorem pipes_are_streams (reachable : Reachable s) :
    (∀ pipe ring, s.kernel.pipes pipe = some ring →
      movedBy false pipe s.kernel.trace ++ ring.contents = movedBy true pipe s.kernel.trace) ∧
    Along Orderly s.kernel.trace ∧
    ∀ k k' write call count, Passes s k' → Returns k write call count k' → Carried write call count k' := by
  have both : Invariant (P := P) fun k => Streams k ∧ Along Orderly k.trace := by
    refine streamsInv.along (fun act sound _ => act.orderly sound) fun noted => ?_
    cases noted with
    | returned current opened answered => exact ⟨_, _, _, current, opened, answered.transferred⟩
    | _ => trivial
  have holds := both.reachable (fun k booted => ⟨booted.streams, by rw [booted.trace]; exact along_nil _⟩) reachable
  refine ⟨fun pipe ring known => holds.1.contents known, holds.2, fun k k' write call count passes returns => ?_⟩
  exact returns.ends.carried (both.passes passes reachable.sound holds).2.2

end

/-- A run on the sample machine: three bytes go through a pipe, and the last read finds the pipe closed. -/
def pipedRun : List Event :=
  [.schedule 0 [], ecall 59 0x10100 0 0, ecall 64 4 0x10000 3, ecall 57 4 0 0, ecall 63 3 0x10200 8]

/-- The run is possible: what is moved and recorded in it, and the state of the pipe after it. -/
theorem pipedRun_reaches : ∃ s : System sample, Reachable s ∧
    (movedBy true 1 s.kernel.trace).map UInt8.toNat = [1, 2, 3] ∧
    (some 0, .ended false 1 [1, 2, 3, 0, 0, 0, 0, 0] 3 false) ∈ s.kernel.trace ∧ s.kernel.trace.getLast? = some (some 0, .returned 3) ∧
    s.kernel.pipes 1 ≠ none ∧ s.kernel.holdsWriteEnd 1 = false ∧
    movedBy false 1 s.kernel.trace = movedBy true 1 s.kernel.trace ∧
    (recorded s.kernel.trace).map (fun event => (event.requestedAmount, event.resultValue, event.errno)) =
      [(1, 1, 0), (3, 3, 0), (8, 3, 0)] := by
  have ran : ((run sample pipedRun).toOption.any fun s =>
      (movedBy true 1 s.kernel.trace).map UInt8.toNat == [1, 2, 3] &&
      (decide ((some 0, .ended false 1 [1, 2, 3, 0, 0, 0, 0, 0] 3 false) ∈ s.kernel.trace) &&
      (s.kernel.trace.getLast? == some (some 0, .returned 3) &&
      ((s.kernel.pipes 1).isSome && (!s.kernel.holdsWriteEnd 1 &&
      (movedBy false 1 s.kernel.trace == movedBy true 1 s.kernel.trace &&
      (recorded s.kernel.trace).map (fun event => (event.requestedAmount, event.resultValue, event.errno)) ==
        [(1, 1, 0), (3, 3, 0), (8, 3, 0)])))))) = true := by
    decide +kernel
  simp only [Option.any_eq_true, toOption_eq_some, Bool.and_eq_true, beq_iff_eq, decide_eq_true_eq, Bool.not_eq_true',
    Option.isSome_iff_ne_none] at ran
  obtain ⟨s, result, facts⟩ := ran
  exact ⟨s, run_reachable result, facts⟩

theorem pipedRun_streams : ∃ s : System sample, Reachable s ∧ (movedBy true 1 s.kernel.trace).map UInt8.toNat = [1, 2, 3] ∧
    (some 0, .ended false 1 [1, 2, 3, 0, 0, 0, 0, 0] 3 false) ∈ s.kernel.trace ∧ s.kernel.trace.getLast? = some (some 0, .returned 3) ∧
    (∀ pipe ring, s.kernel.pipes pipe = some ring →
      movedBy false pipe s.kernel.trace ++ ring.contents = movedBy true pipe s.kernel.trace) ∧
    Along Orderly s.kernel.trace := by
  obtain ⟨s, reachable, bytes, ended, returned, _⟩ := pipedRun_reaches
  obtain ⟨streams, orderly, _⟩ := pipes_are_streams reachable
  exact ⟨s, reachable, bytes, ended, returned, streams, orderly⟩

section
variable {P : Platform} {s : System P}

/-- A read is short only at the end of the stream, and there it does not wait. -/
theorem end_of_file_exact (reachable : Reachable s) :
    Along ShortAtEnd s.kernel.trace ∧
    (∀ k, Passes s k → ∀ pipe, k.pipes pipe ≠ none → k.holdsWriteEnd pipe = false →
      movedBy false pipe k.trace = movedBy true pipe k.trace →
      (∀ endpoint buf permit, endpoint.object.id = pipe → endpoint.readable = true →
        ∃ k', pipeRead endpoint buf permit k = .ok (some 0, k')) ∧
      ∀ call, call.object.id = pipe → ∃ k', pipeReadLoop pipeLoopBound call k = .ok (some call.done, k')) ∧
    ∀ k k' call count, Passes s k' → Returns k false call count k' → count < (call.bytes k'.mm.mem).length →
      k'.holdsWriteEnd call.object.id = false ∧ movedBy false call.object.id k'.trace = movedBy true call.object.id k'.trace := by
  have both : Invariant (P := P) fun k => Streams k ∧ Along ShortAtEnd k.trace := by
    refine streamsInv.along (fun act _ streams => act.shortAtEnd streams) fun noted => ?_
    cases noted <;> trivial
  have holds := both.reachable (fun k booted => ⟨booted.streams, by rw [booted.trace]; exact along_nil _⟩) reachable
  refine ⟨holds.2, fun k passes pipe present closed consumed => ?_, fun k k' call count passes returns => ?_⟩
  · obtain ⟨sound, streams⟩ := streamsInv.passes passes reachable.sound holds.1
    obtain ⟨ring, known⟩ := Option.ne_none_iff_exists'.mp present
    have empty := (streams.empty_iff known).mpr consumed
    refine ⟨?_, fun call same => pipeReadLoop_closed sound.pipes 1 (same ▸ known) empty (same ▸ closed)⟩
    rintro endpoint buf permit rfl readable
    have begun : PipesSound (k.observe (.began false endpoint.object.id
        (PipeCall.bytes (.start endpoint buf permit) k.mm.mem))) := ⟨sound.pipes.rings, sound.pipes.fresh⟩
    obtain ⟨k', run⟩ := @pipeReadLoop_closed _ _ begun _ (.start endpoint buf permit) 1 known empty closed
    refine ⟨k', ?_⟩
    rw [pipeRead, if_pos readable]
    exact run
  · exact returns.ends.consumed (both.passes passes reachable.sound holds).2.2

end

theorem pipedRun_ends : ∃ s : System sample, Reachable s ∧
    (some 0, .ended false 1 [1, 2, 3, 0, 0, 0, 0, 0] 3 false) ∈ s.kernel.trace ∧ Along ShortAtEnd s.kernel.trace ∧
    ∀ buf permit, ∃ k', pipeRead ⟨true, false, ⟨1, 0⟩⟩ buf permit s.kernel = .ok (some 0, k') := by
  obtain ⟨s, reachable, _, short, _, present, closed, consumed, _⟩ := pipedRun_reaches
  obtain ⟨along, waits, _⟩ := end_of_file_exact reachable
  have returns := waits s.kernel .self 1 present closed consumed
  exact ⟨s, reachable, short, along, fun buf permit => returns.1 _ buf permit rfl rfl⟩

end SecureIpc
