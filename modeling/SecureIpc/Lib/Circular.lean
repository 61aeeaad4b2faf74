import Mathlib.Data.List.Basic
import Mathlib.Tactic.Common

/-!
Circular buffers over a fixed array: the sequence of elements read from a head position, and how
writing behind the last element, overwriting the oldest one, and advancing the head change it.
-/

namespace SecureIpc.Lib.Circular
variable {α : Type}

/-- The `len` elements of `cells` starting at `head`, wrapping at the end of the array. -/
def window (cells : List α) (fallback : α) (head len : Nat) : List α :=
  (List.range len).map fun i => cells.getD ((head + i) % cells.length) fallback

@[simp] theorem window_length (cells : List α) (fallback : α) (head len : Nat) :
    (window cells fallback head len).length = len := by
  simp [window]

@[simp] theorem window_zero (cells : List α) (fallback : α) (head : Nat) :
    window cells fallback head 0 = [] := rfl

theorem window_getElem? {cells : List α} {fallback : α} {head len i : Nat} (inside : i < len) :
    (window cells fallback head len)[i]? = some (cells.getD ((head + i) % cells.length) fallback) := by
  simp [window, inside]

theorem getD_set_same {cells : List α} {i : Nat} (inside : i < cells.length) (value fallback : α) :
    (cells.set i value).getD i fallback = value := by
  simp [List.getD, inside]

theorem getD_set_other {cells : List α} {i j : Nat} (different : i ≠ j) (value fallback : α) :
    (cells.set i value).getD j fallback = cells.getD j fallback := by
  simp [List.getD, List.getElem?_set_ne different]

theorem offset_ne {cap head i j : Nat} (below : i < j) (within : j < cap + i) :
    (head + i) % cap ≠ (head + j) % cap := by
  intro same
  have step := Nat.sub_mod_eq_zero_of_mod_eq same.symm
  rw [show head + j - (head + i) = j - i by omega] at step
  have small : (j - i) % cap = j - i := Nat.mod_eq_of_lt (by omega)
  omega

/-- Writing the first free cell appends to the window. -/
theorem window_push {cells : List α} {fallback value : α} {head len : Nat} (room : len < cells.length) :
    window (cells.set ((head + len) % cells.length) value) fallback head (len + 1) =
      window cells fallback head len ++ [value] := by
  have positive : 0 < cells.length := by omega
  have last : (cells.set ((head + len) % cells.length) value).getD ((head + len) % cells.length) fallback = value :=
    getD_set_same (Nat.mod_lt _ positive) _ _
  unfold window
  rw [List.range_succ, List.map_append, List.length_set]
  congr 1
  · apply List.map_congr_left
    intro i inside
    exact getD_set_other (offset_ne (List.mem_range.mp inside) (by omega)).symm _ _
  · rw [List.map_singleton, last]

/-- Advancing the head drops the first element. -/
theorem window_pop {cells : List α} {fallback : α} {head len : Nat} (inside : head < cells.length) :
    window cells fallback head (len + 1) =
      cells.getD head fallback :: window cells fallback ((head + 1) % cells.length) len := by
  unfold window
  rw [List.range_succ_eq_map, List.map_cons, Nat.add_zero, Nat.mod_eq_of_lt inside, List.map_map]
  congr 1
  apply List.map_congr_left
  intro i _
  simp only [Function.comp_apply]
  congr 1
  rw [Nat.mod_add_mod]
  congr 1
  omega

/-- Overwriting the oldest element of a full buffer drops it and appends the new one. -/
theorem window_overwrite {cells : List α} {fallback value : α} {head : Nat} (inside : head < cells.length) :
    window (cells.set head value) fallback ((head + 1) % cells.length) cells.length =
      (window cells fallback head cells.length).tail ++ [value] := by
  obtain ⟨len, full⟩ : ∃ len, cells.length = len + 1 := ⟨cells.length - 1, by omega⟩
  have wraps : ((head + 1) % cells.length + len) % cells.length = head := by
    rw [Nat.mod_add_mod, show head + 1 + len = head + cells.length by omega, Nat.add_mod_right,
      Nat.mod_eq_of_lt inside]
  have pushed := @window_push _ cells fallback value ((head + 1) % cells.length) len (by omega)
  rw [wraps] at pushed
  have popped := @window_pop _ cells fallback head len inside
  rw [← full] at popped pushed
  rw [pushed, popped, List.tail_cons]

end SecureIpc.Lib.Circular
