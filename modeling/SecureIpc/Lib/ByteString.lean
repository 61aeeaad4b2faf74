import SecureIpc.Lib.Bytes

/-!
Byte strings that are read and written at positions: `slice` reads what there is of a stretch, and
`overwrite` replaces one, with zeros up to it where the string is too short.
-/

namespace SecureIpc.Lib

def slice (bytes : List UInt8) (offset len : Nat) : List UInt8 := (bytes.drop offset).take len

def overwrite (bytes : List UInt8) (offset : Nat) (buf : List UInt8) : List UInt8 :=
  bytes.take offset ++ List.replicate (offset - bytes.length) 0 ++ buf ++ bytes.drop (offset + buf.length)

section
variable {bytes buf first second : List UInt8} {offset len i : Nat} {memory : Memory}

theorem slice_length : (slice bytes offset len).length = min (offset + len) bytes.length - offset := by
  simp only [slice, List.length_take, List.length_drop]
  omega

theorem overwrite_length : (overwrite bytes offset buf).length = max bytes.length (offset + buf.length) := by
  simp only [overwrite, List.length_append, List.length_take, List.length_replicate, List.length_drop]
  omega

theorem overwrite_getElem? : (overwrite bytes offset buf)[i]? =
    if offset ≤ i ∧ i < offset + buf.length then buf[i - offset]?
    else if bytes.length ≤ i ∧ i < offset then some 0 else bytes[i]? := by
  have start : (bytes.take offset ++ List.replicate (offset - bytes.length) 0).length = offset := by
    simp only [List.length_append, List.length_take, List.length_replicate]
    omega
  rw [overwrite, List.append_assoc, List.getElem?_append, start]
  by_cases before : i < offset
  · rw [if_pos before, if_neg (by omega), List.getElem?_append, List.length_take]
    by_cases old : i < bytes.length
    · rw [if_pos (by omega), if_neg (by omega), List.getElem?_take, if_pos before]
    · rw [if_neg (by omega), if_pos (by omega), List.getElem?_replicate, if_pos (by omega)]
  · rw [if_neg before, List.getElem?_append]
    by_cases inside : i - offset < buf.length
    · rw [if_pos inside, if_pos (by omega)]
    · rw [if_neg inside, if_neg (by omega), if_neg (by omega), List.getElem?_drop]
      congr 1
      omega

theorem overwrite_append : overwrite (overwrite bytes offset first) (offset + first.length) second =
    overwrite bytes offset (first ++ second) := by
  apply List.ext_getElem?
  intro i
  simp only [overwrite_getElem?, overwrite_length, List.length_append]
  by_cases late : offset + first.length ≤ i ∧ i < offset + first.length + second.length
  · rw [if_pos late, if_pos (by omega), List.getElem?_append_right (by omega)]
    congr 1
    omega
  · rw [if_neg late, if_neg (by omega)]
    by_cases early : offset ≤ i ∧ i < offset + first.length
    · rw [if_pos early, if_pos (by omega), List.getElem?_append_left (by omega)]
    · rw [if_neg early, if_neg (show ¬(offset ≤ i ∧ i < offset + (first.length + second.length)) by omega)]

theorem overwrite_end : overwrite bytes bytes.length buf = bytes ++ buf := by
  simp [overwrite]

/-! ### Records of one width -/

section
variable {α : Type} {encode : α → List UInt8} {width : Nat} {items : List α} {item : α}

theorem flatMap_length (same : ∀ item ∈ items, (encode item).length = width) : (items.flatMap encode).length = width * items.length := by
  induction items with
  | nil => rfl
  | cons item items ih =>
    obtain ⟨first, others⟩ := List.forall_mem_cons.mp same
    rw [List.flatMap_cons, List.length_append, first, ih others, List.length_cons, Nat.mul_succ, Nat.add_comm]

theorem slice_flatMap (same : ∀ item ∈ items, (encode item).length = width) (found : items[i]? = some item) :
    slice (items.flatMap encode) (width * i) width = encode item := by
  induction items generalizing i with
  | nil => cases found
  | cons first items ih =>
    obtain ⟨length, others⟩ := List.forall_mem_cons.mp same
    cases i with
    | zero =>
      obtain rfl : first = item := Option.some.inj found
      rw [List.flatMap_cons, slice, Nat.mul_zero, List.drop_zero, List.take_append_of_le_length (by omega), List.take_of_length_le (by omega)]
    | succ i =>
      have later := @ih i others found
      have skip : (encode first ++ items.flatMap encode).drop (width * (i + 1)) = (items.flatMap encode).drop (width * i) := by
        rw [Nat.mul_succ, Nat.add_comm, ← List.drop_drop, List.drop_left' length]
      rw [List.flatMap_cons, slice, skip]
      exact later

end

/-! ### Strings that lie in a memory -/

theorem Memory.load_getElem? {addr count : Nat} : (memory.load addr count)[i]? = if i < count then some (memory (addr + i)) else none := by
  rw [Memory.load, List.getElem?_map]
  by_cases inside : i < count
  · rw [if_pos inside, List.getElem?_range inside]
    rfl
  · rw [if_neg inside, List.getElem?_eq_none (by simpa using inside)]
    rfl

theorem Memory.load_add {addr more : Nat} : memory.load addr (len + more) = memory.load addr len ++ memory.load (addr + len) more := by
  simp only [Memory.load, List.range_add, List.map_append, List.map_map]
  congr 1
  apply List.map_congr_left
  intro i _
  rw [Function.comp_apply, Nat.add_assoc]

theorem slice_load {size : Nat} : slice (memory.load 0 size) offset len = memory.load offset (min (offset + len) size - offset) := by
  apply List.ext_getElem?
  intro i
  simp only [slice, List.getElem?_take, List.getElem?_drop, Memory.load_getElem?, Nat.zero_add]
  split_ifs <;> first | rfl | omega

/-- Where the memory is zero behind the string, a store there overwrites the string. -/
theorem overwrite_load {size : Nat} (zero : ∀ i, size ≤ i → i < offset → memory i = 0) :
    overwrite (memory.load 0 size) offset buf = (memory.store offset buf).load 0 (max size (offset + buf.length)) := by
  apply List.ext_getElem?
  intro i
  rw [overwrite_getElem?, Memory.load_getElem?, Memory.load_getElem?, Memory.load_length, Nat.zero_add]
  by_cases inside : offset ≤ i ∧ i < offset + buf.length
  · obtain ⟨j, rfl⟩ := Nat.exists_eq_add_of_le inside.1
    have bound : j < buf.length := by omega
    rw [if_pos inside, if_pos (by omega), Memory.store_inside bound, Nat.add_sub_cancel_left, List.getElem?_eq_getElem bound]
  · rw [if_neg inside, Memory.store_outside (by omega)]
    by_cases gap : size ≤ i ∧ i < offset
    · rw [if_pos gap, if_pos (by omega), zero i gap.1 gap.2]
    · rw [if_neg gap]
      split_ifs <;> first | rfl | omega

end

end SecureIpc.Lib
