import Mathlib.Data.List.Basic
import Mathlib.Tactic.Common

/-!
Zero-terminated strings in a memory of which only some bytes can be read. `readString` looks at one
byte after the other; `readString_chunk` takes several at once, and `readString_eq_some` says what a
string is without a loop.
-/

namespace SecureIpc.Lib

/-- The bytes from `addr` up to the first zero byte, which lies among the next `count` bytes. -/
def readString (byte : Nat → Option UInt8) : Nat → Nat → Option (List UInt8)
  | 0, _ => none
  | count + 1, addr => (byte addr).bind fun b =>
    if b = 0 then some [] else (readString byte count (addr + 1)).map (b :: ·)

section
variable {byte byte' : Nat → Option UInt8} {count addr : Nat} {bytes : List UInt8}

theorem readString_succ {b : UInt8} (read : byte addr = some b) : readString byte (count + 1) addr =
    if b = 0 then some [] else (readString byte count (addr + 1)).map (b :: ·) := by
  rw [readString, read, Option.bind_some]

/-- Several bytes at once: the string ends among them, or goes on behind them. -/
theorem readString_chunk (read : ∀ i (inside : i < bytes.length), byte (addr + i) = some bytes[i]) :
    readString byte (bytes.length + count) addr = match bytes.findIdx? (· == 0) with
      | some z => some (bytes.take z)
      | none => (readString byte count (addr + bytes.length)).map (bytes ++ ·) := by
  induction bytes generalizing addr with
  | nil =>
    rw [List.length_nil, Nat.zero_add]
    exact Option.map_id'.symm
  | cons b rest ih =>
    have first : byte addr = some b := read 0 (Nat.succ_pos _)
    have later := @ih (addr + 1) fun i inside => by
      rw [show addr + 1 + i = addr + (i + 1) by omega]
      exact read (i + 1) (Nat.succ_lt_succ inside)
    rw [List.length_cons, Nat.add_right_comm, readString_succ first, later, List.findIdx?_cons]
    by_cases zero : b = 0
    · rw [if_pos zero, if_pos (beq_iff_eq.mpr zero)]
      rfl
    · rw [if_neg zero, if_neg fun same => zero (beq_iff_eq.mp same)]
      cases List.findIdx? (· == 0) rest with
      | some z => rfl
      | none =>
        simp only [Option.map_none, Option.map_map]
        rw [Nat.add_assoc, Nat.add_comm 1]
        rfl

theorem readString_eq_some : readString byte count addr = some bytes ↔ bytes.length < count ∧
    (∀ i (inside : i < bytes.length), byte (addr + i) = some bytes[i] ∧ bytes[i] ≠ 0) ∧
    byte (addr + bytes.length) = some 0 := by
  induction count generalizing addr bytes with
  | zero => exact iff_of_false (by simp [readString]) fun found => Nat.not_lt_zero _ found.1
  | succ count ih =>
    rw [readString, Option.bind_eq_some_iff]
    constructor
    · rintro ⟨b, first, rest⟩
      by_cases zero : b = 0
      · rw [if_pos zero] at rest
        obtain rfl := Option.some.inj rest
        exact ⟨Nat.succ_pos count, by simp, by rw [← zero]; exact first⟩
      · rw [if_neg zero] at rest
        obtain ⟨later, found, rfl⟩ := Option.map_eq_some_iff.mp rest
        obtain ⟨short, each, last⟩ := ih.mp found
        refine ⟨Nat.succ_lt_succ short, fun i inside => ?_, ?_⟩
        · cases i with
          | zero => exact ⟨first, zero⟩
          | succ i =>
            rw [show addr + (i + 1) = addr + 1 + i by omega]
            exact each i (Nat.lt_of_succ_lt_succ inside)
        · rw [List.length_cons, show addr + (later.length + 1) = addr + 1 + later.length by omega]
          exact last
    · rintro ⟨short, each, last⟩
      cases bytes with
      | nil => exact ⟨0, last, if_pos rfl⟩
      | cons b rest =>
        obtain ⟨first, nonzero⟩ : byte addr = some b ∧ b ≠ 0 := each 0 (Nat.succ_pos _)
        refine ⟨b, first, ?_⟩
        rw [if_neg nonzero, Option.map_eq_some_iff]
        refine ⟨rest, ih.mpr ⟨Nat.lt_of_succ_lt_succ short, fun i inside => ?_, ?_⟩, rfl⟩
        · rw [show addr + 1 + i = addr + (i + 1) by omega]
          exact each (i + 1) (Nat.succ_lt_succ inside)
        · rw [show addr + 1 + rest.length = addr + (rest.length + 1) by omega]
          exact last

/-- Only the bytes up to the terminator, or up to the first one that cannot be read, matter. -/
theorem readString_congr (same : ∀ i < count, (∀ j < i, ∃ b, byte (addr + j) = some b ∧ b ≠ 0) →
    byte' (addr + i) = byte (addr + i)) : readString byte' count addr = readString byte count addr := by
  induction count generalizing addr with
  | zero => rfl
  | succ count ih =>
    have first : byte' addr = byte addr := same 0 (Nat.succ_pos count) fun j none => absurd none (Nat.not_lt_zero j)
    rw [readString, readString, first]
    cases read : byte addr with
    | none => rfl
    | some b =>
      rw [Option.bind_some, Option.bind_some]
      split
      · rfl
      · rename_i nonzero
        congr 1
        refine ih fun i inside before => ?_
        rw [show addr + 1 + i = addr + (i + 1) by omega]
        refine same (i + 1) (Nat.succ_lt_succ inside) fun j less => ?_
        cases j with
        | zero => exact ⟨b, read, nonzero⟩
        | succ j =>
          obtain ⟨c, found, other⟩ := before j (Nat.lt_of_succ_lt_succ less)
          exact ⟨c, by rw [← found]; congr 1; omega, other⟩

end

end SecureIpc.Lib
