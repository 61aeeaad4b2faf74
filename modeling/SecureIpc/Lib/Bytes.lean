import Mathlib.Algebra.Group.Int.Defs
import Mathlib.Algebra.Group.Nat.Defs
import Mathlib.Data.List.Basic
import Mathlib.Tactic.Common

/-!
Little-endian byte sequences and byte-addressed memories: storing a sequence, loading one back,
and what a store leaves alone.
-/

namespace SecureIpc.Lib

def span {β : Type} (f : Nat → β) (start stop : Nat) : List β := (List.range (stop - start)).map fun i => f (start + i)

theorem span_empty {β : Type} {f : Nat → β} {start stop : Nat} (empty : stop ≤ start) : span f start stop = [] := by
  rw [span, show stop - start = 0 by omega, List.range_zero, List.map_nil]

theorem span_append {β : Type} {f : Nat → β} {start next stop : Nat} (first : start ≤ next) (second : next ≤ stop) :
    span f start stop = span f start next ++ span f next stop := by
  unfold span
  rw [show stop - start = (next - start) + (stop - next) by omega, List.range_add, List.map_append, List.map_map]
  congr 1
  apply List.map_congr_left
  intro i _
  rw [Function.comp_apply, show start + (next - start + i) = next + i by omega]

abbrev Memory := Nat → UInt8

/-- The low `width` bytes of `value`, least significant first. -/
def toBytes : Nat → Nat → List UInt8
  | 0, _ => []
  | width + 1, value => UInt8.ofNat value :: toBytes width (value / 256)

def ofBytes : List UInt8 → Nat
  | [] => 0
  | byte :: rest => byte.toNat + 256 * ofBytes rest

@[simp] theorem toBytes_length (width value : Nat) : (toBytes width value).length = width := by
  induction width generalizing value with
  | zero => rfl
  | succ width ih => simp [toBytes, ih]

theorem ofBytes_toBytes (width value : Nat) : ofBytes (toBytes width value) = value % 256 ^ width := by
  induction width generalizing value with
  | zero => simp [toBytes, ofBytes, Nat.mod_one]
  | succ width ih =>
    have byte : (UInt8.ofNat value).toNat = value % 256 := by simp
    have power : 256 ^ (width + 1) = 256 * 256 ^ width := by rw [Nat.pow_succ, Nat.mul_comm]
    rw [toBytes, ofBytes, ih, byte, power, Nat.mod_mul]

theorem toBytes_ofBytes (bytes : List UInt8) : toBytes bytes.length (ofBytes bytes) = bytes := by
  induction bytes with
  | nil => rfl
  | cons byte rest ih =>
    have small : byte.toNat < 256 := byte.toNat_lt
    have low : UInt8.ofNat (byte.toNat + 256 * ofBytes rest) = byte := by
      apply UInt8.toNat_inj.mp
      rw [UInt8.toNat_ofNat']
      omega
    have high : (byte.toNat + 256 * ofBytes rest) / 256 = ofBytes rest := by omega
    rw [List.length_cons, ofBytes, toBytes, low, high, ih]

theorem ofBytes_lt (bytes : List UInt8) : ofBytes bytes < 256 ^ bytes.length := by
  induction bytes with
  | nil => exact Nat.one_pos
  | cons byte rest ih =>
    have small : byte.toNat < 256 := byte.toNat_lt
    rw [List.length_cons, ofBytes, Nat.pow_succ]
    omega

namespace Memory

def load (memory : Memory) (addr count : Nat) : List UInt8 := (List.range count).map fun i => memory (addr + i)

/-- `memory` with `bytes` placed at `addr`. -/
def store (memory : Memory) (addr : Nat) (bytes : List UInt8) : Memory := fun x =>
  if addr ≤ x ∧ x < addr + bytes.length then bytes.getD (x - addr) 0 else memory x

@[simp] theorem load_length (memory : Memory) (addr count : Nat) : (memory.load addr count).length = count := by
  simp [load]

theorem store_outside {memory : Memory} {addr x : Nat} {bytes : List UInt8}
    (outside : x < addr ∨ addr + bytes.length ≤ x) : memory.store addr bytes x = memory x := by
  unfold store
  rw [if_neg (by omega)]

theorem store_inside {memory : Memory} {addr i : Nat} {bytes : List UInt8} (inside : i < bytes.length) :
    memory.store addr bytes (addr + i) = bytes[i] := by
  unfold store
  rw [if_pos (by omega), Nat.add_sub_cancel_left, List.getD, List.getElem?_eq_getElem inside, Option.getD_some]

theorem load_congr {m n : Memory} {addr count : Nat} (same : ∀ i < count, m (addr + i) = n (addr + i)) :
    m.load addr count = n.load addr count :=
  List.map_congr_left fun i inside => same i (List.mem_range.mp inside)

theorem load_store_same (memory : Memory) (addr : Nat) (bytes : List UInt8) :
    (memory.store addr bytes).load addr bytes.length = bytes := by
  apply List.ext_getElem (by simp)
  intro i _ inside
  simp [load, store_inside inside]

theorem load_store_other {memory : Memory} {addr other count : Nat} {bytes : List UInt8}
    (disjoint : other + count ≤ addr ∨ addr + bytes.length ≤ other) :
    (memory.store addr bytes).load other count = memory.load other count :=
  load_congr fun i inside => store_outside (by omega)

theorem store_append (memory : Memory) (addr : Nat) (first second : List UInt8) :
    memory.store addr (first ++ second) = (memory.store addr first).store (addr + first.length) second := by
  funext x
  by_cases later : addr + first.length ≤ x ∧ x < addr + first.length + second.length
  · obtain ⟨i, rfl⟩ := Nat.exists_eq_add_of_le later.1
    rw [store_inside (by omega), Nat.add_assoc, store_inside (by rw [List.length_append]; omega),
      List.getElem_append_right (by omega)]
    simp only [Nat.add_sub_cancel_left]
  · rw [store_outside (show x < addr + first.length ∨ addr + first.length + second.length ≤ x by omega)]
    by_cases early : addr ≤ x ∧ x < addr + first.length
    · obtain ⟨i, rfl⟩ := Nat.exists_eq_add_of_le early.1
      rw [store_inside (by rw [List.length_append]; omega), store_inside (by omega), List.getElem_append_left]
    · rw [store_outside (by rw [List.length_append]; omega), store_outside (by omega)]

theorem store_load_same (memory : Memory) (addr count : Nat) : memory.store addr (memory.load addr count) = memory := by
  funext x
  by_cases inside : addr ≤ x ∧ x < addr + count
  · obtain ⟨i, rfl⟩ := Nat.exists_eq_add_of_le inside.1
    rw [store_inside (by rw [load_length]; omega)]
    simp [load]
  · exact store_outside (by rw [load_length]; omega)

def readWord (memory : Memory) (addr : Nat) : Nat := ofBytes (memory.load addr 8)

def writeWord (memory : Memory) (addr value : Nat) : Memory := memory.store addr (toBytes 8 value)

theorem readWord_writeWord_same (memory : Memory) (addr value : Nat) :
    (memory.writeWord addr value).readWord addr = value % 2 ^ 64 := by
  have loaded := load_store_same memory addr (toBytes 8 value)
  rw [toBytes_length] at loaded
  rw [readWord, writeWord, loaded, ofBytes_toBytes]
  rfl

theorem readWord_writeWord_other {memory : Memory} {addr other value : Nat}
    (disjoint : other + 8 ≤ addr ∨ addr + 8 ≤ other) :
    (memory.writeWord addr value).readWord other = memory.readWord other := by
  rw [readWord, writeWord, load_store_other (by simpa using disjoint), readWord]

theorem readWord_congr {m n : Memory} {addr : Nat} (same : ∀ i < 8, m (addr + i) = n (addr + i)) :
    m.readWord addr = n.readWord addr := by
  rw [readWord, readWord, load_congr same]

theorem writeWord_outside {memory : Memory} {addr x value : Nat} (outside : x < addr ∨ addr + 8 ≤ x) :
    memory.writeWord addr value x = memory x :=
  store_outside (by simpa using outside)

theorem readWord_lt (memory : Memory) (addr : Nat) : memory.readWord addr < 2 ^ 64 := by
  have bound := ofBytes_lt (memory.load addr 8)
  rw [load_length] at bound
  exact bound

theorem writeWord_readWord (memory : Memory) (addr : Nat) : memory.writeWord addr (memory.readWord addr) = memory := by
  have bytes := toBytes_ofBytes (memory.load addr 8)
  rw [load_length] at bytes
  rw [writeWord, readWord, bytes, store_load_same]

def storeWords (memory : Memory) (addr : Nat) (words : List Nat) : Memory := memory.store addr (words.flatMap (toBytes 8))

theorem storeWords_cons (memory : Memory) (addr word : Nat) (rest : List Nat) :
    memory.storeWords addr (word :: rest) = (memory.writeWord addr word).storeWords (addr + 8) rest := by
  unfold storeWords writeWord
  rw [List.flatMap_cons, store_append, toBytes_length]

theorem storeWords_outside {memory : Memory} {addr x : Nat} {words : List Nat} (outside : x < addr) :
    memory.storeWords addr words x = memory x :=
  store_outside (Or.inl outside)

theorem readWord_storeWords {memory : Memory} {addr i : Nat} {words : List Nat} (inside : i < words.length) :
    (memory.storeWords addr words).readWord (addr + 8 * i) = words[i] % 2 ^ 64 := by
  induction words generalizing memory addr i with
  | nil => cases inside
  | cons word rest ih =>
    rw [storeWords_cons]
    cases i with
    | zero =>
      rw [readWord_congr fun j _ => storeWords_outside (by omega)]
      exact readWord_writeWord_same memory addr word
    | succ i =>
      rw [show addr + 8 * (i + 1) = addr + 8 + 8 * i by omega]
      exact ih (Nat.lt_of_succ_lt_succ inside)

theorem storeWords_same {memory : Memory} {addr : Nat} {words : List Nat}
    (same : ∀ i (inside : i < words.length), words[i] = memory.readWord (addr + 8 * i)) :
    memory.storeWords addr words = memory := by
  induction words generalizing addr with
  | nil => exact store_load_same memory addr 0
  | cons word rest ih =>
    have first : word = memory.readWord addr := same 0 (Nat.succ_pos _)
    rw [storeWords_cons, first, writeWord_readWord]
    refine ih fun i inside => ?_
    rw [show addr + 8 + 8 * i = addr + 8 * (i + 1) by omega]
    exact same (i + 1) (Nat.succ_lt_succ inside)

end Memory

end SecureIpc.Lib
