import SecureIpc.Run.Files

/-! The loops of `Pipe::read` and `Pipe::write`: byte by byte, and never longer than their bound. -/

namespace SecureIpc
open Lib

section
variable {P : Platform} {k k' : Kernel P} {id : Nat} {task : TaskControlBlock} {ring : PipeRingBuffer} {write : Bool}
  {call : PipeCall}

/-! ### One byte -/

/-- The iterator is behind the bytes that have been moved, and the buffer has as many bytes as are wanted. -/
structure PipeCall.Walks (call : PipeCall) : Prop where
  placed : call.iter.Placed
  remaining : call.iter.remaining = call.addrs.drop call.done
  want : call.addrs.length = call.want

/-- The iterator of a transfer that has bytes left gives the next one. -/
theorem PipeCall.Walks.next (walks : call.Walks) (less : call.done < call.want) :
    ∃ ref iter, call.iter.next = .ok (some ref, iter) ∧ call.addrs[call.done]? = some ref ∧ iter.Placed ∧
      iter.buffers = call.iter.buffers ∧ iter.remaining = call.addrs.drop (call.done + 1) := by
  obtain ⟨after, step, placed, buffers, left⟩ := UserBufferIterator.next_placed walks.placed
  have inside : call.done < call.addrs.length := by
    rw [walks.want]
    exact less
  rw [walks.remaining, List.head?_drop] at step
  rw [walks.remaining, List.tail_drop] at left
  refine ⟨call.addrs[call.done], after, ?_, List.getElem?_eq_getElem inside, placed, buffers, left⟩
  rw [step, List.getElem?_eq_getElem inside]

theorem Carries.walks (carries : Carries k id write call) : call.Walks := ⟨carries.placed, carries.remaining, carries.want⟩

theorem Carries.bytes_length (carries : Carries k id write call) : (call.bytes k.mm.mem).length = call.want := by
  rw [PipeCall.bytes, List.length_map, carries.want]

/-- One more byte has been moved: the buffer holds it at the place the iterator pointed to, and the
others are as they were. -/
theorem Carries.move (carries : Carries k id write call) (byte : UInt8) (less : call.done < call.want)
    (current : k.current = some id) {ref : Nat} {iter : UserBufferIterator} {observation : Observation}
    (moved : call.iter.next = .ok (some ref, iter)) (trace : k'.trace = k.trace ++ [(k.current, observation)])
    (tells : observation.moved write call.object.id = some byte) (here : k'.mm.mem ref = byte)
    (others : ∀ x, x ≠ ref → k'.mm.mem x = k.mm.mem x) (unchanged : write = true → k'.mm.mem ref = k.mm.mem ref) :
    Carries k' id write { call with iter, done := call.done + 1 } := by
  obtain ⟨ref', iter', step, place, placed, buffers, remaining⟩ := carries.walks.next less
  obtain ⟨rfl, rfl⟩ : ref = ref' ∧ iter = iter' := by
    have same := Prod.mk.inj (Except.ok.inj (moved.symm.trans step))
    exact ⟨Option.some.inj same.1, same.2⟩
  obtain ⟨⟨entry, since, opened, requested, start, bytes, rfl, moves, rest, same⟩, _, _, distinct, want, bound, asks, small⟩ := carries
  have addrs : PipeCall.addrs { call with iter, done := call.done + 1 } = call.addrs := by
    unfold PipeCall.addrs
    rw [buffers]
  have inside : call.done < call.addrs.length := by omega
  have there : call.addrs[call.done] = ref := by
    rw [List.getElem?_eq_getElem inside] at place
    exact Option.some.inj place
  -- the byte at position `done` is the one that was moved
  have split : call.addrs = call.addrs.take call.done ++ ref :: call.addrs.drop (call.done + 1) := by
    rw [← there, List.getElem_cons_drop, List.take_append_drop]
  have apart : ref ∉ call.addrs.take call.done ∧ ref ∉ call.addrs.drop (call.done + 1) := by
    rw [split, List.nodup_append] at distinct
    exact ⟨fun early => distinct.2.2 ref early ref List.mem_cons_self rfl, (List.nodup_cons.mp distinct.2.1).1⟩
  have early : (call.addrs.take call.done).map k'.mm.mem = (call.addrs.take call.done).map k.mm.mem :=
    List.map_congr_left fun x member => others x fun clash => apart.1 (clash ▸ member)
  have late : (call.addrs.drop (call.done + 1)).map k'.mm.mem = (call.addrs.drop (call.done + 1)).map k.mm.mem :=
    List.map_congr_left fun x member => others x fun clash => apart.2 (clash ▸ member)
  have first : (call.addrs.map k'.mm.mem).take (call.done + 1) = (call.addrs.map k.mm.mem).take call.done ++ [byte] := by
    rw [← List.map_take, ← List.map_take, List.take_succ_eq_append_getElem inside, List.map_append, early, there,
      List.map_singleton, here]
  refine ⟨⟨entry, .began write call.object.id start :: bytes ++ [observation], ?_, requested, start, bytes ++ [observation],
    List.cons_append, ?_, ?_, fun wrote => ?_⟩, placed, ?_, ?_, ?_, less, ⟨asks.object, asks.amount, asks.operation⟩, small⟩
  · rw [trace, current, openCall_own, opened]
    cases observation with
    | stored | took => rfl
    | _ => cases tells
  · unfold PipeCall.bytes at moves ⊢
    rw [addrs, first, List.map_append, List.map_append, List.map_singleton, List.map_singleton, moves, tells]
  · unfold PipeCall.bytes at rest ⊢
    rw [addrs, ← List.map_drop, late, List.map_drop, ← List.drop_drop, rest, List.drop_drop]
  · unfold PipeCall.bytes at same ⊢
    rw [addrs, ← same wrote]
    refine List.map_congr_left fun x _ => ?_
    by_cases clash : x = ref
    · rw [clash]
      exact unchanged wrote
    · exact others x clash
  · rw [addrs]
    exact remaining
  · rw [addrs]
    exact distinct
  · rw [addrs]
    exact want

/-- What a pass over the ring of `pipe` leaves alone. -/
def PassFrame (pipe : ResourceId) (k k' : Kernel P) : Prop :=
  k'.current = k.current ∧ k'.tasks = k.tasks ∧ ∀ other ≠ pipe, k'.pipes other = k.pipes other

theorem PassFrame.refl (pipe : ResourceId) (k : Kernel P) : PassFrame pipe k k := ⟨rfl, rfl, fun _ _ => rfl⟩

theorem PassFrame.trans {pipe : ResourceId} {k₁ k₂ k₃ : Kernel P} (first : PassFrame pipe k₁ k₂)
    (second : PassFrame pipe k₂ k₃) : PassFrame pipe k₁ k₃ :=
  ⟨second.1.trans first.1, second.2.1.trans first.2.1, fun other different =>
    (second.2.2 other different).trans (first.2.2 other different)⟩

theorem wp_pipeBuffer {Q : PipeRingBuffer → Kernel P → Prop} {E : Halt → Prop} {pipe : ResourceId}
    (known : k.pipes pipe = some ring) : wp (pipeBuffer pipe) Q E k ↔ Q ring k := by
  simp only [pipeBuffer, wp_bind, wp_read, known, wp_pure]

theorem next_ok {iter after : UserBufferIterator} {ref : Option Nat} (run : iter.next = .ok (ref, after)) :
    after.buffers = iter.buffers ∧ ∀ x, ref = some x → ∃ slice ∈ iter.buffers, x ∈ slice.addrs := by
  unfold UserBufferIterator.next at run
  cases entry : iter.buffers[iter.currentBuffer]? with
  | none =>
    rw [entry] at run
    obtain ⟨rfl, rfl⟩ := Prod.mk.inj (Except.ok.inj run)
    exact ⟨rfl, nofun⟩
  | some slice =>
    rw [entry] at run
    dsimp only at run
    have member := List.mem_of_getElem? entry
    split_ifs at run with beyond last
    · obtain ⟨rfl, rfl⟩ := Prod.mk.inj (Except.ok.inj run)
      refine ⟨rfl, fun x same => ⟨slice, member, ?_⟩⟩
      obtain rfl := Option.some.inj same
      exact mem_addrs.mpr ⟨Nat.le_add_right _ _, by omega⟩
    · obtain ⟨rfl, rfl⟩ := Prod.mk.inj (Except.ok.inj run)
      refine ⟨rfl, fun x same => ⟨slice, member, ?_⟩⟩
      obtain rfl := Option.some.inj same
      exact mem_addrs.mpr ⟨Nat.le_add_right _ _, by omega⟩

theorem takeByte_does {ref : Nat} {iter : UserBufferIterator} (sound : PipesSound k) (current : k.current = some id)
    (found : k.tasks id = some task) (known : k.pipes call.object.id = some ring) (data : ring.availableRead ≠ 0)
    (inside : ref / 4096 ∈ task.memorySet.userFrames) (carries : Carries k id false call) (less : call.done < call.want)
    (moved : call.iter.next = .ok (some ref, iter)) :
    Does (takeByte call.object.id ref) (fun _ k' => PassFrame call.object.id k k' ∧
      Carries k' id false { call with iter, done := call.done + 1 } ∧
      ∃ after, k'.pipes call.object.id = some after ∧ after.availableRead + 1 = ring.availableRead) k := by
  obtain ⟨byte, after, run, _, _, _, count⟩ := (sound.rings known).1.readByte data
  simp only [Does, takeByte, wp_bind, wp_pipeBuffer known, run, fault, Except.mapError, wp_lift_ok, wp_modify]
  refine ⟨(Act.take ref known data run current found inside).one, ⟨rfl, rfl, fun other different => Kernel.set_other different⟩,
    carries.move byte less current moved rfl ?_ ?_ (fun x different => ?_) (by simp), after, Kernel.set_same _ _ _, count⟩
  · simp [Observation.moved]
  · exact Memory.store_inside (show 0 < [byte].length from Nat.one_pos)
  · apply Memory.store_outside
    rw [List.length_singleton]
    omega

theorem storeByte_does {ref : Nat} {iter : UserBufferIterator} (sound : PipesSound k) (current : k.current = some id)
    (known : k.pipes call.object.id = some ring) (room : ring.availableWrite ≠ 0) (carries : Carries k id true call)
    (less : call.done < call.want) (moved : call.iter.next = .ok (some ref, iter)) :
    Does (storeByte call.object.id ref) (fun _ k' => PassFrame call.object.id k k' ∧
      Carries k' id true { call with iter, done := call.done + 1 } ∧
      ∃ after, k'.pipes call.object.id = some after ∧ after.availableWrite + 1 = ring.availableWrite) k := by
  obtain ⟨after, run, _, _, _, count⟩ := (sound.rings known).1.writeByte room (k.mm.mem ref)
  simp only [Does, storeByte, wp_bind, wp_pipeBuffer known, wp_userMemory, run, fault, Except.mapError, wp_lift_ok,
    wp_modify]
  refine ⟨(Act.store ref known room run).one, ⟨rfl, rfl, fun other different => Kernel.set_other different⟩,
    carries.move (k.mm.mem ref) less current moved rfl ?_ rfl (fun _ _ => rfl) fun _ => rfl, after,
    Kernel.set_same _ _ _, count⟩
  simp [Observation.moved]

/-! ### One pass -/

structure PipeCall.Later (call later : PipeCall) : Prop where
  object : later.object = call.object
  want : later.want = call.want
  permit : later.permit = call.permit
  buffers : later.iter.buffers = call.iter.buffers

/-- A pass over as many bytes as are available uses all of them up, or the call is finished. -/
theorem transferPass_does {transfer : ResourceId → Nat → KernelM P Unit} {available : PipeRingBuffer → Nat}
    (one : ∀ {k : Kernel P} {call ring} {ref : Nat} {iter : UserBufferIterator}, PipesSound k → k.current = some id →
      k.tasks id = some task → k.pipes call.object.id = some ring → available ring ≠ 0 →
      ref / 4096 ∈ task.memorySet.userFrames → Carries k id write call → call.done < call.want →
      call.iter.next = .ok (some ref, iter) →
      Does (transfer call.object.id ref) (fun _ k' => PassFrame call.object.id k k' ∧
        Carries k' id write { call with iter, done := call.done + 1 } ∧
        ∃ after, k'.pipes call.object.id = some after ∧ available after + 1 = available ring) k)
    (call : PipeCall) (sound : PipesSound k) (current : k.current = some id) (found : k.tasks id = some task)
    (known : k.pipes call.object.id = some ring) (covers : task.memorySet.Covers call.iter.buffers)
    (carries : Carries k id write call) (less : call.done < call.want) :
    Does (transferPass transfer (available ring) call) (fun r k' => PassFrame call.object.id k k' ∧ call.Later r.1 ∧
      Carries k' id write r.1 ∧ (r.2 = true → r.1.done = r.1.want) ∧
      (r.2 = false → r.1.done < r.1.want ∧ ∃ after, k'.pipes call.object.id = some after ∧ available after = 0)) k := by
  induction count : available ring generalizing k call ring with
  | zero => exact Does.pure ⟨.refl _ _, ⟨rfl, rfl, rfl, rfl⟩, carries, nofun, fun _ => ⟨less, ring, known, count⟩⟩
  | succ rest ih =>
    unfold transferPass
    apply wp_bind.mpr
    obtain ⟨ref, iter, moved, _, _, buffers, _⟩ := carries.walks.next less
    refine wp_fault (fun next run => ?_) fun _ => rfl
    obtain rfl := Except.ok.inj (moved.symm.trans run)
    obtain ⟨_, inside⟩ := next_ok moved
    obtain ⟨slice, member, here⟩ := inside ref rfl
    apply (one sound current found known (by omega) ((covers slice member).2 ref here) carries less moved).bind
    rintro _ k₁ acts ⟨frame, carries₁, after, known₁, less₁⟩
    have sound₁ : PipesSound k₁ := acts.keeps (fun _ _ act => act.pipesSound) sound
    have current₁ : k₁.current = some id := frame.1.trans current
    have found₁ : k₁.tasks id = some task := by
      rw [frame.2.1]
      exact found
    have covers₁ : task.memorySet.Covers iter.buffers := by
      rw [buffers]
      exact covers
    dsimp only
    split
    · rename_i finished
      exact Does.pure ⟨frame, ⟨rfl, rfl, rfl, buffers⟩, carries₁, fun _ => finished, nofun⟩
    · rename_i unfinished
      have more : call.done + 1 < call.want := by omega
      apply (ih { call with iter, done := call.done + 1 } sound₁ current₁ found₁ known₁ covers₁ carries₁ more (by omega)).mono
      rintro result k₂ _ ⟨later, ⟨object, want, permit, same⟩, last⟩
      exact ⟨frame.trans later, ⟨object, want, permit, same.trans buffers⟩, last⟩

/-! ### The loops -/

theorem allWriteEndsClosed_wp {Q : Bool → Kernel P → Prop} {E : Halt → Prop} {pipe : ResourceId}
    (writeEnd : ring.writeEnd = some pipe) :
    wp (allWriteEndsClosed ring) Q E k ↔ Q (!k.holdsWriteEnd pipe) k := by
  simp only [allWriteEndsClosed, writeEnd, wp_bind, wp_read, wp_pure]

theorem endTransfer_does (current : k.current = some id) (carries : Carries k id write call)
    (finished : call.done = call.want ∨ write = false ∧ k.Drained call.object.id) :
    Does (endTransfer write call) (fun r k' => ∀ count, r = some count → k'.current = some id ∧ Settled k' id call.permit.request count) k := by
  refine ⟨(Act.ended current carries finished).one, fun count same => ⟨current, ?_⟩⟩
  obtain rfl := Option.some.inj same
  obtain ⟨entry, since, opened, requested, moves⟩ := carries.opened
  obtain ⟨endpoint, target, object⟩ := requested.target carries.asks.moves
  have bound := carries.bound
  have small := carries.small
  refine ⟨by omega, entry, since ++ [.ended write call.object.id (call.bytes k.mm.mem) call.done
    (k.holdsWriteEnd call.object.id)], ?_, requested, ?_, Or.inr ⟨endpoint, call.bytes k.mm.mem, call.done, target, ?_, rfl, ?_⟩⟩
  · exact (openCall_observe current _).trans (by rw [opened]; rfl)
  · rw [recordedIn, List.filterMap_append]
    exact List.append_eq_nil_iff.mpr ⟨moves.recorded, rfl⟩
  · rw [carries.bytes_length, carries.asks.amount]
  · have direction : decide (call.permit.request.operation = .pipeWrite) = write := by
      rw [carries.asks.operation]
      cases write <;> rfl
    rw [endedIn, List.filterMap_append, show List.filterMap _ since = [] from moves.ended, direction, object, carries.asks.object]
    rfl

theorem pipeReadLoop_empty (sound : PipesSound k) (current : k.current = some id) (found : k.tasks id = some task)
    (fuel : Nat) (known : k.pipes call.object.id = some ring) (empty : ring.availableRead = 0)
    (covers : task.memorySet.Covers call.iter.buffers) (carries : Carries k id false call) (less : call.done < call.want) :
    Does (pipeReadLoop (fuel + 1) call)
      (fun r k' => ∀ count, r = some count → k'.current = some id ∧ Settled k' id call.permit.request count) k := by
  have pipe : k.KnownPoint (.pipeRead call) := by
    rw [Kernel.KnownPoint, known]
    exact Option.some_ne_none ring
  simp only [Does, pipeReadLoop, wp_bind, wp_pipeBuffer known, empty, if_true,
    allWriteEndsClosed_wp (sound.rings known).2]
  split
  · rename_i closed
    exact endTransfer_does current carries (Or.inr ⟨rfl, by simpa using closed, ring, known, empty⟩)
  · apply (suspend_does current found (.pipeRead call) pipe covers ⟨carries, less⟩).bind
    intro _ k₁ _ _
    exact Does.pure nofun

theorem pipeWriteLoop_full (current : k.current = some id) (found : k.tasks id = some task) (fuel : Nat)
    (known : k.pipes call.object.id = some ring) (full : ring.availableWrite = 0)
    (covers : task.memorySet.Covers call.iter.buffers) (carries : Carries k id true call) (less : call.done < call.want) :
    Does (pipeWriteLoop (fuel + 1) call)
      (fun r k' => ∀ count, r = some count → k'.current = some id ∧ Settled k' id call.permit.request count) k := by
  have pipe : k.KnownPoint (.pipeWrite call) := by
    rw [Kernel.KnownPoint, known]
    exact Option.some_ne_none ring
  apply wp_bind.mpr
  rw [wp_pipeBuffer known, if_pos full]
  apply (suspend_does current found (.pipeWrite call) pipe covers ⟨carries, less⟩).bind
  intro _ k₁ _ _
  exact Does.pure nofun

theorem pipeReadLoop_does (sound : Sound k) (current : k.current = some id) (found : k.tasks id = some task)
    (call : PipeCall) (known : k.pipes call.object.id ≠ none) (covers : task.memorySet.Covers call.iter.buffers)
    (carries : Carries k id false call) (less : call.done < call.want) :
    Does (pipeReadLoop pipeLoopBound call)
      (fun r k' => ∀ count, r = some count → k'.current = some id ∧ Settled k' id call.permit.request count) k := by
  obtain ⟨ring, known⟩ := Option.ne_none_iff_exists'.mp known
  by_cases empty : ring.availableRead = 0
  · exact pipeReadLoop_empty sound.pipes current found 1 known empty covers carries less
  · apply wp_bind.mpr
    rw [wp_pipeBuffer known, if_neg empty]
    apply (transferPass_does takeByte_does call sound.pipes current found known covers carries less).bind
    rintro ⟨call', returned⟩ k₁ acts ⟨frame, stage, carries₁, finished, unfinished⟩
    have current₁ : k₁.current = some id := frame.1.trans current
    have found₁ : k₁.tasks id = some task := by
      rw [frame.2.1]
      exact found
    cases returned with
    | true =>
      apply (endTransfer_does current₁ carries₁ (Or.inl (finished rfl))).mono
      intro r k₂ _ last count same
      exact stage.permit ▸ last count same
    | false =>
      obtain ⟨less₁, after, known₁, used⟩ := unfinished rfl
      have covers₁ : task.memorySet.Covers call'.iter.buffers := by
        rw [stage.buffers]
        exact covers
      have known₁ : k₁.pipes call'.object.id = some after := by
        rw [stage.object]
        exact known₁
      apply (pipeReadLoop_empty (acts.sound sound).pipes current₁ found₁ 0 known₁ used covers₁ carries₁ less₁).mono
      intro r k₂ _ last count same
      exact stage.permit ▸ last count same

theorem pipeWriteLoop_does (sound : Sound k) (current : k.current = some id) (found : k.tasks id = some task)
    (call : PipeCall) (known : k.pipes call.object.id ≠ none) (covers : task.memorySet.Covers call.iter.buffers)
    (carries : Carries k id true call) (less : call.done < call.want) :
    Does (pipeWriteLoop pipeLoopBound call)
      (fun r k' => ∀ count, r = some count → k'.current = some id ∧ Settled k' id call.permit.request count) k := by
  obtain ⟨ring, known⟩ := Option.ne_none_iff_exists'.mp known
  by_cases full : ring.availableWrite = 0
  · exact pipeWriteLoop_full current found 1 known full covers carries less
  · apply wp_bind.mpr
    rw [wp_pipeBuffer known, if_neg full]
    apply (transferPass_does (fun sound current _ known room _ => storeByte_does sound current known room) call sound.pipes
      current found known covers carries less).bind
    rintro ⟨call', returned⟩ k₁ acts ⟨frame, stage, carries₁, finished, unfinished⟩
    have current₁ : k₁.current = some id := frame.1.trans current
    have found₁ : k₁.tasks id = some task := by
      rw [frame.2.1]
      exact found
    cases returned with
    | true =>
      apply (endTransfer_does current₁ carries₁ (Or.inl (finished rfl))).mono
      intro r k₂ _ last count same
      exact stage.permit ▸ last count same
    | false =>
      obtain ⟨less₁, after, known₁, used⟩ := unfinished rfl
      have covers₁ : task.memorySet.Covers call'.iter.buffers := by
        rw [stage.buffers]
        exact covers
      have known₁ : k₁.pipes call'.object.id = some after := by
        rw [stage.object]
        exact known₁
      apply (pipeWriteLoop_full current₁ found₁ 0 known₁ used covers₁ carries₁ less₁).mono
      intro r k₂ _ last count same
      exact stage.permit ▸ last count same

/-! ### Starting a transfer -/

theorem beginTransfer_does {entry : Entry} (current : k.current = some id) (opened : openCall id k.trace = some (entry, []))
    (requested : Requested entry call.permit.request) (asks : call.Asks write) (start : call.done = 0) (iter : call.iter = ⟨call.iter.buffers, 0, 0⟩)
    (covers : task.memorySet.Covers call.iter.buffers) (distinct : call.addrs.Nodup) (want : call.addrs.length = call.want)
    (small : call.want ≤ 2 ^ 38) :
    Does (beginTransfer write call) (fun _ k' => Carries k' id write call ∧ k'.current = some id ∧ k'.tasks = k.tasks ∧
      k'.pipes = k.pipes) k := by
  refine ⟨(Act.began write call).one, ?_, current, rfl, rfl⟩
  have placed : call.iter.Placed := by
    rw [iter]
    exact @UserBuffer.intoIter_placed ⟨call.iter.buffers⟩ fun segment member => (covers segment member).1
  refine ⟨⟨entry, [.began write call.object.id (call.bytes k.mm.mem)], ?_, requested, call.bytes k.mm.mem, [], rfl, ?_, rfl, fun _ => rfl⟩, placed, ?_, distinct, want, ?_, asks, small⟩
  · exact (openCall_observe current _).trans (by rw [opened]; rfl)
  · rw [start]
    rfl
  · rw [start, iter]
    exact @UserBuffer.intoIter_remaining ⟨call.iter.buffers⟩
  · rw [start]
    exact Nat.zero_le _

end

end SecureIpc
