import SecureIpc.Fs.Pipe
import SecureIpc.Lib.Circular

/-! The ring of a pipe as a queue of at most 32 bytes. -/

namespace SecureIpc
open Lib Circular

namespace PipeRingBuffer

structure WellFormed (ring : PipeRingBuffer) : Prop where
  length : ring.arr.length = ringBufferSize
  head : ring.head < ringBufferSize
  tail : ring.tail < ringBufferSize
  normal : ring.status = .normal ↔ ring.head ≠ ring.tail

/-- The bytes in the ring, the next one to be read first. -/
def contents (self : PipeRingBuffer) : List UInt8 := window self.arr 0 self.head self.availableRead

@[simp] theorem contents_length (self : PipeRingBuffer) : self.contents.length = self.availableRead :=
  window_length _ _ _ _

theorem new_wellFormed (id : ResourceId) : (new.setWriteEnd id).WellFormed where
  length := rfl
  head := (by decide : 0 < ringBufferSize)
  tail := (by decide : 0 < ringBufferSize)
  normal := ⟨nofun, fun different => absurd rfl different⟩

variable {ring : PipeRingBuffer}

theorem WellFormed.availableRead_eq (formed : ring.WellFormed) :
    ring.availableRead ≤ ringBufferSize ∧ (ring.head + ring.availableRead) % ringBufferSize = ring.tail ∧
      (ring.availableRead = 0 ↔ ring.status = .empty) ∧ (ring.availableRead = ringBufferSize ↔ ring.status = .full) := by
  obtain ⟨_, head, tail, normal⟩ := formed
  unfold availableRead
  unfold ringBufferSize at *
  cases status : ring.status with
  | empty =>
    have same : ring.head = ring.tail := by simpa [status] using normal
    simp [same]
    omega
  | full =>
    have same : ring.head = ring.tail := by simpa [status] using normal
    simp [same]
    omega
  | normal =>
    have different : ring.head ≠ ring.tail := normal.mp status
    simp
    split_ifs with before <;> omega

theorem WellFormed.availableWrite_eq (formed : ring.WellFormed) :
    ring.availableWrite = ringBufferSize - ring.availableRead := by
  obtain ⟨_, _, _, full⟩ := formed.availableRead_eq
  unfold availableWrite
  split_ifs with status
  · rw [full.mpr status, Nat.sub_self]
  · rfl

theorem availableRead_of_tail {size : Nat} (formed : ring.WellFormed) (small : size ≤ ringBufferSize)
    (tail : (ring.head + size) % ringBufferSize = ring.tail) (empty : ring.status = .empty → size = 0)
    (full : ring.status ≠ .empty → size ≠ 0) : ring.availableRead = size := by
  obtain ⟨bound, same, zero, _⟩ := formed.availableRead_eq
  by_cases status : ring.status = .empty
  · rw [zero.mpr status, empty status]
  · have positive := full status
    have nonzero : ring.availableRead ≠ 0 := fun none => status (zero.mp none)
    have head := formed.head
    unfold ringBufferSize at *
    omega

theorem WellFormed.readByte (formed : ring.WellFormed) (data : ring.availableRead ≠ 0) :
    ∃ byte after, ring.readByte = .ok (byte, after) ∧ after.WellFormed ∧ after.writeEnd = ring.writeEnd ∧
      ring.contents = byte :: after.contents ∧ after.availableRead + 1 = ring.availableRead := by
  obtain ⟨bound, tail, zero, full⟩ := formed.availableRead_eq
  have inside : ring.head < ring.arr.length := by rw [formed.length]; exact formed.head
  obtain ⟨rest, some⟩ : ∃ rest, ring.availableRead = rest + 1 := ⟨ring.availableRead - 1, by omega⟩
  let head := (ring.head + 1) % ringBufferSize
  let after : PipeRingBuffer := { ring with head, status := if head = ring.tail then .empty else .normal }
  have small : head < ringBufferSize := Nat.mod_lt _ (by decide)
  have after_formed : after.WellFormed := by
    refine ⟨formed.length, small, formed.tail, ?_⟩
    show (if head = ring.tail then RingBufferStatus.empty else .normal) = .normal ↔ head ≠ ring.tail
    split_ifs with last <;> simp [last]
  have tail' : (head + rest) % ringBufferSize = ring.tail := by
    rw [Nat.mod_add_mod, ← tail, some]
    congr 1
    omega
  have count : after.availableRead = rest := by
    apply availableRead_of_tail after_formed (by omega) tail'
    · intro status
      have last : head = ring.tail := by
        by_contra other
        simp [after, other] at status
      unfold ringBufferSize at *
      omega
    · intro status none
      subst none
      apply status
      show (if head = ring.tail then RingBufferStatus.empty else .normal) = .empty
      rw [Nat.add_zero, Nat.mod_eq_of_lt small] at tail'
      rw [if_pos tail']
  refine ⟨ring.arr.getD ring.head 0, after, ?_, after_formed, rfl, ?_, by omega⟩
  · unfold PipeRingBuffer.readByte
    rw [getIndex_ok inside, List.getD, List.getElem?_eq_getElem inside]
    rfl
  · unfold contents
    rw [count, some, window_pop inside, formed.length]

theorem WellFormed.writeByte (formed : ring.WellFormed) (room : ring.availableWrite ≠ 0) (byte : UInt8) :
    ∃ after, ring.writeByte byte = .ok after ∧ after.WellFormed ∧ after.writeEnd = ring.writeEnd ∧
      after.contents = ring.contents ++ [byte] ∧ after.availableWrite + 1 = ring.availableWrite := by
  obtain ⟨bound, tail, zero, full⟩ := formed.availableRead_eq
  have free := formed.availableWrite_eq
  have inside : ring.tail < ring.arr.length := by rw [formed.length]; exact formed.tail
  let next := (ring.tail + 1) % ringBufferSize
  let after : PipeRingBuffer :=
    { ring with arr := ring.arr.set ring.tail byte, tail := next, status := if next = ring.head then .full else .normal }
  have after_formed : after.WellFormed := by
    refine ⟨by rw [List.length_set, formed.length], formed.head, Nat.mod_lt _ (by decide), ?_⟩
    show (if next = ring.head then RingBufferStatus.full else .normal) = .normal ↔ ring.head ≠ next
    split_ifs with last
    · simp [last]
    · simp [Ne.symm last]
  have tail' : (ring.head + (ring.availableRead + 1)) % ringBufferSize = next := by
    show _ = (ring.tail + 1) % ringBufferSize
    rw [← tail, Nat.mod_add_mod, Nat.add_assoc]
  have count : after.availableRead = ring.availableRead + 1 := by
    apply availableRead_of_tail after_formed (by omega) tail'
    · intro status
      exfalso
      simp only [after] at status
      split_ifs at status
    · intro _ none
      omega
  refine ⟨after, ?_, after_formed, rfl, ?_, ?_⟩
  · unfold PipeRingBuffer.writeByte
    rw [setIndex_ok inside]
    rfl
  · unfold contents
    rw [count]
    show window (ring.arr.set ring.tail byte) 0 ring.head (ring.availableRead + 1) = _
    have place : ring.tail = (ring.head + ring.availableRead) % ring.arr.length := by rw [formed.length, tail]
    rw [place]
    exact window_push (by rw [formed.length]; omega)
  · rw [after_formed.availableWrite_eq, count, free]
    omega

end PipeRingBuffer

end SecureIpc
