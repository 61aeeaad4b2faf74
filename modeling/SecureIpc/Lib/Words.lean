import Mathlib.Data.Nat.Bitwise
import SecureIpc.Lib.Bytes

/-! Numbers of a fixed width in a byte-addressed memory, and 64-bit words as sets of bits. -/

namespace SecureIpc.Lib

namespace Memory
variable {memory other : Memory} {width addr at' value : Nat}

def readNat (memory : Memory) (width addr : Nat) : Nat := ofBytes (memory.load addr width)

def writeNat (memory : Memory) (width addr value : Nat) : Memory := memory.store addr (toBytes width value)

theorem readNat_writeNat_same (small : value < 256 ^ width) : (memory.writeNat width addr value).readNat width addr = value := by
  have loaded := load_store_same memory addr (toBytes width value)
  rw [toBytes_length] at loaded
  rw [readNat, writeNat, loaded, ofBytes_toBytes, Nat.mod_eq_of_lt small]

theorem readNat_writeNat_other {width' : Nat} (disjoint : at' + width' ≤ addr ∨ addr + width ≤ at') :
    (memory.writeNat width addr value).readNat width' at' = memory.readNat width' at' := by
  rw [readNat, writeNat, load_store_other (by simpa using disjoint), readNat]

theorem readNat_congr (same : ∀ i < width, memory (addr + i) = other (addr + i)) :
    memory.readNat width addr = other.readNat width addr := by
  rw [readNat, readNat, load_congr same]

theorem ofBytes_zero {bytes : List UInt8} (zero : ∀ b ∈ bytes, b = 0) : ofBytes bytes = 0 := by
  induction bytes with
  | nil => rfl
  | cons byte rest ih =>
    rw [ofBytes, zero byte List.mem_cons_self, ih fun b member => zero b (List.mem_cons_of_mem _ member)]
    rfl

theorem readNat_zero (zero : ∀ i < width, memory (addr + i) = 0) : memory.readNat width addr = 0 := by
  apply ofBytes_zero
  intro b member
  obtain ⟨i, inside, rfl⟩ := List.mem_map.mp member
  exact zero i (List.mem_range.mp inside)

theorem readNat_store_numbers {numbers : List Nat} {rest : List UInt8} {i : Nat} (inside : i < numbers.length)
    (small : numbers[i] < 256 ^ width) :
    (memory.store addr (numbers.flatMap (toBytes width) ++ rest)).readNat width (addr + width * i) = numbers[i] := by
  induction numbers generalizing memory addr i with
  | nil => cases inside
  | cons number numbers ih =>
    rw [List.flatMap_cons, List.append_assoc, store_append, toBytes_length]
    cases i with
    | zero =>
      rw [Nat.mul_zero, Nat.add_zero, readNat, load_store_other (by omega)]
      exact readNat_writeNat_same small
    | succ i =>
      rw [Nat.mul_succ, Nat.add_comm (width * i) width, ← Nat.add_assoc]
      exact ih (Nat.lt_of_succ_lt_succ inside) small

end Memory

/-! ### Bits of a word -/

/-- The number of ones at the low end of a word of at most `width` bits. -/
def trailingOnes : Nat → Nat → Nat
  | 0, _ => 0
  | width + 1, word => if word % 2 = 1 then trailingOnes width (word / 2) + 1 else 0

theorem trailingOnes_ones {width word i : Nat} (below : i < trailingOnes width word) : word.testBit i = true := by
  induction width generalizing word i with
  | zero => cases below
  | succ width ih =>
    unfold trailingOnes at below
    by_cases odd : word % 2 = 1
    · rw [if_pos odd] at below
      cases i with
      | zero => simp [Nat.testBit_zero, odd]
      | succ i =>
        rw [Nat.testBit_succ]
        exact ih (Nat.lt_of_succ_lt_succ below)
    · rw [if_neg odd] at below
      cases below

/-- A word that is not all ones has a zero after its trailing ones. -/
theorem trailingOnes_zero {width word : Nat} (small : word < 2 ^ width) (room : word ≠ 2 ^ width - 1) :
    trailingOnes width word < width ∧ word.testBit (trailingOnes width word) = false := by
  induction width generalizing word with
  | zero => omega
  | succ width ih =>
    have power : 2 ^ (width + 1) = 2 * 2 ^ width := by rw [Nat.pow_succ, Nat.mul_comm]
    unfold trailingOnes
    by_cases odd : word % 2 = 1
    · rw [if_pos odd, Nat.testBit_succ]
      obtain ⟨inside, clear⟩ := @ih (word / 2) (by omega) (by omega)
      exact ⟨Nat.succ_lt_succ inside, clear⟩
    · rw [if_neg odd]
      simp [Nat.testBit_zero, odd]

theorem testBit_set {word i j : Nat} : (word ||| 1 <<< i).testBit j = (word.testBit j || decide (j = i)) := by
  rw [Nat.testBit_or, Nat.one_shiftLeft, Nat.testBit_two_pow]
  congr 1
  exact decide_eq_decide.mpr eq_comm

theorem set_lt {word i width : Nat} (small : word < 2 ^ width) (inside : i < width) : word ||| 1 <<< i < 2 ^ width := by
  rw [Nat.one_shiftLeft]
  exact Nat.or_lt_two_pow small (Nat.pow_lt_pow_right (by decide) inside)

theorem and_bit {word i : Nat} : 0 < word &&& 1 <<< i ↔ word.testBit i = true := by
  rw [Nat.one_shiftLeft, Nat.and_two_pow]
  cases word.testBit i with
  | false => simp
  | true =>
    rw [Bool.toNat_true, Nat.one_mul]
    exact iff_of_true (Nat.two_pow_pos i) rfl

theorem two_pow_le_of_testBit {word i : Nat} (present : word.testBit i = true) : 2 ^ i ≤ word := by
  by_contra small
  rw [Nat.testBit_lt_two_pow (Nat.lt_of_not_le small)] at present
  cases present

/-- Subtracting a bit that is set clears it. -/
theorem testBit_clear {word i j : Nat} (present : word.testBit i = true) :
    (word - 1 <<< i).testBit j = (word.testBit j && decide (j ≠ i)) := by
  rw [Nat.one_shiftLeft]
  induction i generalizing word j with
  | zero =>
    have odd : word % 2 = 1 := by simpa [Nat.testBit_zero] using present
    cases j with
    | zero =>
      have even : (word - 1) % 2 = 0 := by omega
      simp [Nat.testBit_zero, even]
    | succ j =>
      have half : (word - 1) / 2 = word / 2 := by omega
      simp [Nat.testBit_succ, half]
  | succ i ih =>
    have power : 2 ^ (i + 1) = 2 * 2 ^ i := by rw [Nat.pow_succ, Nat.mul_comm]
    rw [Nat.testBit_succ] at present
    have large := two_pow_le_of_testBit present
    cases j with
    | zero =>
      have parity : (word - 2 ^ (i + 1)) % 2 = word % 2 := by omega
      simp [Nat.testBit_zero, parity]
    | succ j =>
      have half : (word - 2 ^ (i + 1)) / 2 = word / 2 - 2 ^ i := by omega
      rw [Nat.testBit_succ, half, ih present, Nat.testBit_succ]
      simp

end SecureIpc.Lib
