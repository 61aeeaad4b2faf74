import Mathlib.Data.List.Basic
import Mathlib.Tactic.Common

/-!
Tables of numbered slots, some of them empty. A new entry goes to the first empty slot, and a full
table grows by one.
-/

namespace SecureIpc.Lib

variable {α : Type}

def slot (table : List (Option α)) (i : Nat) : Option α := table[i]?.join

/-- The first empty slot; the one after the last when there is none. -/
def freeSlot (table : List (Option α)) : Nat := (table.findIdx? Option.isNone).getD table.length

def fill (table : List (Option α)) (a : α) : List (Option α) :=
  if freeSlot table < table.length then table.set (freeSlot table) (some a) else table ++ [some a]

section
variable {table : List (Option α)} {a : α} {i j : Nat}

theorem slot_eq_none (outside : table.length ≤ i) : slot table i = none := by
  rw [slot, List.getElem?_eq_none outside]
  rfl

theorem slot_eq_some : slot table i = some a ↔ table[i]? = some (some a) := by
  rw [slot, Option.join_eq_some_iff]

/-- A table has an empty slot below its length, or no empty slot at all. -/
theorem freeSlot_cases (table : List (Option α)) :
    (∃ inside : freeSlot table < table.length, table[freeSlot table] = none) ∨
      freeSlot table = table.length ∧ ∀ entry ∈ table, entry.isSome := by
  unfold freeSlot
  cases search : table.findIdx? Option.isNone with
  | some first =>
    obtain ⟨inside, empty, _⟩ := List.findIdx?_eq_some_iff_getElem.mp search
    exact Or.inl ⟨inside, Option.isNone_iff_eq_none.mp empty⟩
  | none =>
    refine Or.inr ⟨rfl, fun entry member => ?_⟩
    have full := List.findIdx?_eq_none_iff.mp search entry member
    rw [← Option.not_isNone, full]
    rfl

theorem slot_freeSlot (table : List (Option α)) : slot table (freeSlot table) = none := by
  rcases freeSlot_cases table with ⟨inside, empty⟩ | ⟨last, _⟩
  · rw [slot, List.getElem?_eq_getElem inside, empty]
    rfl
  · exact slot_eq_none (Nat.le_of_eq last.symm)

theorem slot_set (inside : i < table.length) (entry : Option α) :
    slot (table.set i entry) j = if j = i then entry else slot table j := by
  by_cases same : j = i
  · subst same
    rw [if_pos rfl, slot, List.getElem?_set_self inside]
    rfl
  · rw [if_neg same, slot, List.getElem?_set_ne (Ne.symm same), slot]

theorem slot_fill : slot (fill table a) j = if j = freeSlot table then some a else slot table j := by
  unfold fill
  rcases freeSlot_cases table with ⟨inside, _⟩ | ⟨last, _⟩
  · rw [if_pos inside, slot_set inside]
  · rw [if_neg (by omega), last]
    by_cases same : j = table.length
    · subst same
      rw [if_pos rfl, slot, List.getElem?_concat_length]
      rfl
    · rw [if_neg same]
      by_cases before : j < table.length
      · rw [slot, List.getElem?_append_left before, slot]
      · have beyond : (table ++ [some a]).length ≤ j := by
          rw [List.length_append, List.length_singleton]
          omega
        rw [slot_eq_none beyond, slot_eq_none (by omega)]

theorem slot_clear : slot (table.set i none) j = if j = i then none else slot table j := by
  by_cases inside : i < table.length
  · exact slot_set inside none
  · rw [List.set_eq_of_length_le (by omega)]
    split_ifs with same
    · exact slot_eq_none (by omega)
    · rfl

/-! ### Counting entries -/

section
variable {p : Option α → Bool}

theorem countP_fill (empty : p none = false) :
    (fill table a).countP p = table.countP p + if p (some a) then 1 else 0 := by
  unfold fill
  rcases freeSlot_cases table with ⟨inside, free⟩ | ⟨last, _⟩
  · rw [if_pos inside, List.countP_set inside, free, empty]
    rfl
  · rw [if_neg (by omega), List.countP_append, List.countP_singleton]

theorem countP_clear (table : List (Option α)) (i : Nat) (empty : p none = false) :
    (table.set i none).countP p + (if p (slot table i) then 1 else 0) = table.countP p := by
  by_cases inside : i < table.length
  · have entry : slot table i = table[i] := by
      rw [slot, List.getElem?_eq_getElem inside]
      rfl
    rw [List.countP_set inside, empty, entry, if_neg Bool.false_ne_true, Nat.add_zero]
    split_ifs with counted
    · have positive : 0 < table.countP p := List.countP_pos_iff.mpr ⟨table[i], List.getElem_mem inside, counted⟩
      omega
    · omega
  · rw [List.set_eq_of_length_le (by omega), slot_eq_none (by omega), empty]
    rfl

end

theorem length_fill {bound : Nat} (short : table.length ≤ bound) (room : table.countP Option.isSome < bound) :
    (fill table a).length ≤ bound := by
  unfold fill
  rcases freeSlot_cases table with ⟨inside, _⟩ | ⟨last, full⟩
  · rwa [if_pos inside, List.length_set]
  · have count := List.countP_eq_length.mpr full
    rw [if_neg (by omega), List.length_append, List.length_singleton]
    omega

theorem freeSlot_lt {bound : Nat} (short : table.length ≤ bound) (room : table.countP Option.isSome < bound) :
    freeSlot table < bound := by
  rcases freeSlot_cases table with ⟨inside, _⟩ | ⟨last, full⟩
  · omega
  · have count := List.countP_eq_length.mpr full
    omega

theorem length_le_fill (table : List (Option α)) (a : α) : table.length ≤ (fill table a).length := by
  unfold fill
  split
  · exact Nat.le_of_eq List.length_set.symm
  · rw [List.length_append]
    exact Nat.le_add_right _ _

/-- A table with the same entries that is not shorter has empty slots at its end. -/
theorem eq_append_none {grown : List (Option α)} (slots : ∀ i, slot grown i = slot table i)
    (longer : table.length ≤ grown.length) : grown = table ++ List.replicate (grown.length - table.length) none := by
  apply List.ext_getElem
  · rw [List.length_append, List.length_replicate]
    omega
  · intro i inside _
    have entry := slots i
    rw [slot, List.getElem?_eq_getElem inside, slot] at entry
    by_cases old : i < table.length
    · rw [List.getElem_append_left old]
      rwa [List.getElem?_eq_getElem old] at entry
    · rw [List.getElem_append_right (by omega), List.getElem_replicate]
      rwa [List.getElem?_eq_none (by omega)] at entry

end

/-! ### The kinds of the entries -/

section
variable {β : Type} (f : α → β) (table : List (Option α))

@[simp] theorem slot_map (i : Nat) : slot (table.map (Option.map f)) i = (slot table i).map f := by
  rw [slot, slot, List.getElem?_map]
  cases table[i]? <;> rfl

@[simp] theorem freeSlot_map : freeSlot (table.map (Option.map f)) = freeSlot table := by
  have same : (Option.isNone ∘ Option.map f) = Option.isNone := by
    funext entry
    cases entry <;> rfl
  rw [freeSlot, freeSlot, List.findIdx?_map, same, List.length_map]

theorem fill_map (a : α) : fill (table.map (Option.map f)) (f a) = (fill table a).map (Option.map f) := by
  rw [fill, fill, freeSlot_map, List.length_map]
  split
  · rw [List.map_set]
    rfl
  · simp

end

end SecureIpc.Lib
