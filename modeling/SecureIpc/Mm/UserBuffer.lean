import SecureIpc.Mm.UserRange

/-!
Iteration over a page-segmented buffer visits its bytes once each and in order; with the exactness of
the range check this is what every access to validated user memory rests on.
-/

namespace SecureIpc
open Lib

namespace UserBufferIterator
variable {iter : UserBufferIterator}

/-- The position is inside the current segment, or past the last one. -/
def Placed (iter : UserBufferIterator) : Prop :=
  (∀ segment ∈ iter.buffers, 0 < segment.len) ∧
    (∀ segment, iter.buffers[iter.currentBuffer]? = some segment → iter.currentIdx < segment.len) ∧
    (iter.buffers.length ≤ iter.currentBuffer → iter.currentIdx = 0)

def remaining (iter : UserBufferIterator) : List Nat :=
  ((iter.buffers.drop iter.currentBuffer).flatMap Slice.addrs).drop iter.currentIdx

theorem next_none (done : iter.buffers.length ≤ iter.currentBuffer) : iter.next = .ok (none, iter) := by
  unfold next
  rw [List.getElem?_eq_none done]

/-- One call of `next` on a placed iterator returns the first unvisited address. -/
theorem next_placed (placed : iter.Placed) :
    ∃ after, iter.next = .ok (iter.remaining.head?, after) ∧ after.Placed ∧
      after.buffers = iter.buffers ∧ after.remaining = iter.remaining.tail := by
  obtain ⟨nonempty, within, past⟩ := placed
  cases found : iter.buffers[iter.currentBuffer]? with
  | none =>
    have done := List.getElem?_eq_none_iff.mp found
    have empty : iter.remaining = [] := by
      rw [remaining, List.drop_of_length_le done, List.flatMap_nil, List.drop_nil]
    exact ⟨iter, by rw [next_none done, empty]; rfl, ⟨nonempty, within, past⟩, rfl, by rw [empty]; rfl⟩
  | some segment =>
    obtain ⟨inRange, entry⟩ := List.getElem?_eq_some_iff.mp found
    have inside := within segment found
    have split : iter.remaining = (segment.addrs.drop iter.currentIdx) ++
        (iter.buffers.drop (iter.currentBuffer + 1)).flatMap Slice.addrs := by
      rw [remaining, List.drop_eq_getElem_cons inRange, entry, List.flatMap_cons,
        List.drop_append_of_le_length (by simp [Slice.addrs]; omega)]
    have here : segment.addrs.drop iter.currentIdx =
        (segment.base + iter.currentIdx) :: segment.addrs.drop (iter.currentIdx + 1) := by
      rw [List.drop_eq_getElem_cons (by simpa [Slice.addrs] using inside)]
      simp [Slice.addrs]
    have first : iter.remaining.head? = some (segment.base + iter.currentIdx) := by
      rw [split, here]
      rfl
    have rest : iter.remaining.tail = (segment.addrs.drop (iter.currentIdx + 1)) ++
        (iter.buffers.drop (iter.currentBuffer + 1)).flatMap Slice.addrs := by
      rw [split, here]
      rfl
    unfold next
    rw [found, first, rest]
    dsimp only
    rw [if_neg (by omega)]
    by_cases last : iter.currentIdx + 1 = segment.len
    · -- the segment is finished: the next one starts at index 0
      rw [if_pos last]
      refine ⟨_, rfl, ⟨nonempty, ?_, fun _ => rfl⟩, rfl, ?_⟩
      · intro later entry
        exact nonempty later (List.mem_of_getElem? entry)
      · have used : segment.addrs.drop (iter.currentIdx + 1) = [] :=
          List.drop_of_length_le (by simp [Slice.addrs, last])
        rw [remaining, List.drop_zero, used, List.nil_append]
    · rw [if_neg last]
      refine ⟨_, rfl, ⟨nonempty, ?_, fun done => ?_⟩, rfl, ?_⟩
      · intro same entry
        rw [found] at entry
        obtain rfl := Option.some.inj entry
        show iter.currentIdx + 1 < segment.len
        omega
      · exact absurd done (Nat.not_le.mpr inRange)
      · rw [remaining, List.drop_eq_getElem_cons inRange, entry, List.flatMap_cons,
          List.drop_append_of_le_length (by simp [Slice.addrs]; omega)]

def collect : Nat → UserBufferIterator → Except Fault (List Nat)
  | 0, _ => .ok []
  | count + 1, iter => do
    match ← iter.next with
    | (none, _) => return []
    | (some ref, after) => return ref :: (← collect count after)

theorem collect_placed (placed : iter.Placed) (count : Nat) :
    collect count iter = .ok (iter.remaining.take count) := by
  induction count generalizing iter with
  | zero => rfl
  | succ count ih =>
    obtain ⟨after, step, placedAfter, _, left⟩ := next_placed placed
    unfold collect
    simp only [step, bind, Except.bind]
    cases visit : iter.remaining with
    | nil => rfl
    | cons ref later =>
      rw [visit] at left
      simp only [List.head?_cons, ih placedAfter, left, pure, Except.pure, List.tail_cons, List.take_succ_cons]

end UserBufferIterator

theorem UserBuffer.intoIter_placed {buffer : UserBuffer} (nonempty : ∀ segment ∈ buffer.buffers, 0 < segment.len) :
    buffer.intoIter.Placed :=
  ⟨nonempty, fun segment entry => nonempty segment (List.mem_of_getElem? entry), fun _ => rfl⟩

theorem UserBuffer.intoIter_remaining (buffer : UserBuffer) : buffer.intoIter.remaining = buffer.addrs := by
  rw [UserBufferIterator.remaining, UserBuffer.intoIter, List.drop_zero, List.drop_zero, UserBuffer.addrs]

theorem UserBuffer.len_eq_addrs (buffer : UserBuffer) : buffer.len = buffer.addrs.length := by
  simp [UserBuffer.len, UserBuffer.addrs, List.length_flatMap, Slice.addrs]

theorem userPages_iff {mem : PhysMem} {token ptr len : Nat} {write : Bool} :
    (∀ a, ptr ≤ a → a < ptr + len → UserPage mem token write (a / 4096)) ↔
      ∀ vpn, vpn * 4096 < ptr + len → ptr < vpn * 4096 + 4096 → 0 < len → UserPage mem token write vpn := by
  constructor
  · intro all vpn starts ends positive
    -- the first byte of the page inside the range
    have page := all (max ptr (vpn * 4096)) (by omega) (by omega)
    rwa [show max ptr (vpn * 4096) / 4096 = vpn by omega] at page
  · intro all a reached before
    exact all (a / 4096) (by omega) (by omega) (by omega)

/-- `check_user_range` accepts exactly the ranges inside the user half whose pages all allow the
access, and an accepted range is translated to non-empty segments that hold, byte for byte and in
order, what its addresses translate to; iterating over the buffer visits exactly these bytes. -/
theorem user_access_exact (mem : PhysMem) (token ptr len : Nat) (write : Bool) (word : ptr < 2 ^ 64) :
    (checkUserRange mem token ptr len write = true ↔
      len = 0 ∨ (ptr + len < 2 ^ 64 ∧ ptr < 2 ^ 38 ∧ ptr + len ≤ 2 ^ 38 ∧
        ∀ vpn, vpn * 4096 < ptr + len → ptr < vpn * 4096 + 4096 → UserPage mem token write vpn)) ∧
    (checkUserRange mem token ptr len write = true →
      ∃ segments, tryTranslatedByteBuffer mem token ptr len write = .ok (some segments) ∧
        (∀ segment ∈ segments, 0 < segment.len ∧ segment.base % 4096 + segment.len ≤ 4096) ∧
        (segments.flatMap Slice.addrs).length = len ∧
        (∀ i < len, ∃ pa, (segments.flatMap Slice.addrs)[i]? = some pa ∧
          (PageTable.fromToken token).translateVa mem (VirtAddr.ofUsize (ptr + i)) = some pa) ∧
        (UserBuffer.mk segments).len = len ∧
        ∀ count, UserBufferIterator.collect count (UserBuffer.mk segments).intoIter =
          .ok ((segments.flatMap Slice.addrs).take count)) := by
  constructor
  · rw [checkUserRange_iff, userPages_iff]
    by_cases zero : len = 0
    · simp [zero]
    · simp only [zero, false_or, Nat.pos_of_ne_zero zero, true_implies]
  · intro checked
    obtain ⟨segments, run, inside, covered⟩ := tryTranslatedByteBuffer_cover word checked
    obtain ⟨total, entries⟩ := cover_entries covered
    refine ⟨segments, run, inside, total, entries, ?_, ?_⟩
    · rw [UserBuffer.len_eq_addrs]
      exact total
    · intro count
      have placed := @UserBuffer.intoIter_placed ⟨segments⟩ fun segment member => (inside segment member).1
      rw [UserBufferIterator.collect_placed placed, UserBuffer.intoIter_remaining]
      rfl

/-- Two user pages, 0 and 1, that lie in the frames 5 and 7. -/
def twoPages : PhysMem :=
  (((Memory.writeWord (fun _ => 0) (pteAddr 1 0) (PageTableEntry.new 2 PTEFlags.V).bits).writeWord (pteAddr 2 0)
    (PageTableEntry.new 3 PTEFlags.V).bits).writeWord (pteAddr 3 0) (PageTableEntry.new 5 0x17).bits).writeWord
    (pteAddr 3 1) (PageTableEntry.new 7 0x17).bits

theorem user_access_exact_crossing :
    checkUserRange twoPages (8 * 2 ^ 60 + 1) 4090 10 true = true ∧
      ∃ segments, tryTranslatedByteBuffer twoPages (8 * 2 ^ 60 + 1) 4090 10 true = .ok (some segments) ∧
        (UserBuffer.mk segments).len = 10 := by
  have checked : checkUserRange twoPages (8 * 2 ^ 60 + 1) 4090 10 true = true := by decide +kernel
  obtain ⟨segments, run, _, _, _, len, _⟩ :=
    (user_access_exact twoPages (8 * 2 ^ 60 + 1) 4090 10 true (by decide)).2 checked
  exact ⟨checked, segments, run, len⟩

end SecureIpc
