import Mathlib.Algebra.Group.Int.Defs
import Mathlib.Algebra.Group.Nat.Defs
import SecureIpc.Lib.Program

/-!
The machine the kernel runs on: word sizes, the page size, and the ways the kernel can stop.

The Makefiles build with `--release`, so that `+` and `-` wrap around and `debug_assert!` is left out. The model
wraps (`subWrap`, `% 2 ^ 64`) where a number that a program chooses can leave its word: in the headers of an
executable and on the stack of its arguments. Elsewhere it keeps the checks of a debug build, as a fault of its own:
a call without that fault does the same in both builds.
-/

namespace SecureIpc
open Lib

/-- Panics of the code below the process level: memory management and the audit ring. -/
inductive Fault where
  /-- A `+` or `-` that leaves the machine word. -/
  | overflow
  /-- A slice or array index out of range. -/
  | index
  | outOfFrames
  | frameNotAllocated
  | alreadyMapped
  | notMapped
  | untranslated
  /-- A kernel store to a page that its own page table does not map writable. -/
  | kernelStore
  | badRange
  | misaligned
  | mapType
  | badElf
  | argumentArea
  deriving DecidableEq, Repr

/-- Ways in which the kernel stops: a failed assertion, `unwrap` or index, or a shutdown. -/
inductive Halt where
  | fault (fault : Fault)
  /-- A `debug_assert!` of `QuotaState`. -/
  | quotaAssert
  | noCurrentTask
  | pidNotRegistered
  | pidNotAllocated
  | strongCount
  | stdinLength
  | stdioDirection
  | notUtf8
  | pipeDirection
  | noWriteEnd
  | shortWrite
  | noTrapBackup
  | unsupportedSyscall
  | unsupportedTrap
  | fileSystem
  | noInitproc
  /-- An `Arc` whose target has been dropped: excluded by Rust, kept so that lookups are total. -/
  | dangling
  /-- A bounded loop of the model ran longer than its bound. -/
  | stuck
  | shutdown (failure : Bool)
  deriving DecidableEq, Repr

/-- A Rust `String` as its UTF-8 bytes. -/
abbrev Utf8 := List UInt8

def isUtf8 (bytes : List UInt8) : Bool := (ByteArray.mk bytes.toArray).validateUTF8

def u64Max : Nat := 2 ^ 64 - 1

def checkedAdd (a b : Nat) : Option Nat := if a + b < 2 ^ 64 then some (a + b) else none

def checkedMul (a b : Nat) : Option Nat := if a * b < 2 ^ 64 then some (a * b) else none

/-- An addition that must stay inside the machine word. -/
def addWord (a b : Nat) : Except Fault Nat := if a + b < 2 ^ 64 then .ok (a + b) else .error .overflow

theorem checkedAdd_eq_some {a b c : Nat} : checkedAdd a b = some c ↔ a + b < 2 ^ 64 ∧ c = a + b := by
  unfold checkedAdd
  split
  · rename_i fits
    simp only [Option.some.injEq, fits, true_and]
    exact eq_comm
  · rename_i wraps
    simp only [reduceCtorEq, wraps, false_and]

theorem addWord_ok {a b : Nat} (fits : a + b < 2 ^ 64) : addWord a b = .ok (a + b) := if_pos fits

def subWord (a b : Nat) : Except Fault Nat := if b ≤ a then .ok (a - b) else .error .overflow

theorem subWord_ok {a b : Nat} (ordered : b ≤ a) : subWord a b = .ok (a - b) := by
  simp [subWord, ordered]

/-- A subtraction that wraps around, as in a release build. -/
def subWrap (a b : Nat) : Nat := (a + (2 ^ 64 - b % 2 ^ 64)) % 2 ^ 64

def wordOfInt (value : Int) : Nat := (value % 2 ^ 64).toNat

def intOfWord (word : Nat) : Int := (BitVec.ofNat 64 word).toInt

theorem intOfWord_small {word : Nat} (small : word < 2 ^ 63) : intOfWord word = word := by
  rw [intOfWord, BitVec.toInt_eq_toNat_of_lt]
  · rw [BitVec.toNat_ofNat, Nat.mod_eq_of_lt (by omega)]
  · rw [BitVec.toNat_ofNat, Nat.mod_eq_of_lt (by omega)]
    omega

def i32OfWord (word : Nat) : Int := (BitVec.ofNat 32 word).toInt

/-- `xs[index] = value`, which panics outside the array. -/
def setIndex {α : Type} (xs : List α) (index : Nat) (value : α) : Except Fault (List α) :=
  if index < xs.length then .ok (xs.set index value) else .error .index

def getIndex {α : Type} (xs : List α) (index : Nat) : Except Fault α :=
  match xs[index]? with
  | some value => .ok value
  | none => .error .index

theorem setIndex_ok {α : Type} {xs : List α} {index : Nat} {value : α} (inside : index < xs.length) :
    setIndex xs index value = .ok (xs.set index value) := by
  simp [setIndex, inside]

theorem getIndex_ok {α : Type} {xs : List α} {index : Nat} (inside : index < xs.length) :
    getIndex xs index = .ok xs[index] := by
  simp [getIndex, inside]

/-! ### Single bits -/

theorem cast_bit (w i : Nat) : ((1 <<< i : Nat) : BitVec w) = BitVec.twoPow w i := by
  apply BitVec.eq_of_toNat_eq
  rw [BitVec.toNat_twoPow]
  show (BitVec.ofNat w (1 <<< i)).toNat = _
  rw [BitVec.toNat_ofNat, Nat.one_shiftLeft]

theorem twoPow_ne_zero {w i : Nat} (small : i < w) : BitVec.twoPow w i ≠ 0#w := by
  intro zero
  have set := BitVec.getLsbD_twoPow (w := w) i i
  rw [zero] at set
  simp [small] at set

theorem and_twoPow_ne_zero {w i : Nat} {x : BitVec w} (small : i < w) :
    (x &&& BitVec.twoPow w i != 0) = x.getLsbD i := by
  rw [BitVec.and_twoPow]
  split_ifs with set
  · rw [set]
    exact bne_iff_ne.mpr (twoPow_ne_zero small)
  · rw [Bool.eq_false_iff.mpr set]
    exact bne_self_eq_false _

end SecureIpc
