import SecureIpc.EasyFs.BlockCache
import SecureIpc.Lib.Words
import SecureIpc.Machine

/-!
The disk as the users of the block cache see it: block `id` is the 512 bytes from `id * 512` on. A user
locks the cache of a block while it works on it; the blocks locked by its callers are passed along.

`+` and `-` of `u32` are those of a build with overflow checks. A call that returns has met no overflow, so it
returns the same in the release build that the Makefiles make; where a check fails, that build goes on with the
number modulo 2 ^ 32.
-/

namespace SecureIpc.EasyFs
open Lib

inductive FsFault where
  /-- A `+` or `-` that leaves its type. -/
  | overflow
  | index
  | assertion
  /-- The `unwrap` of what a full bitmap returns. -/
  | bitmapFull
  /-- The `unwrap` at the end of the list of new blocks. -/
  | noBlock
  | notUtf8
  /-- The mutex of a block that is locked already. -/
  | deadlock
  | outOfBlockCache
  deriving DecidableEq, Repr

abbrev FsM := Program Memory FsFault

def blockAddr (id : Nat) : Nat := id * blockSz

/-- `get_block_cache(id).lock()` while the blocks `held` are locked. -/
def lockBlock (held : List Nat) (id : Nat) : FsM (List Nat) :=
  if id ∈ held then throw .deadlock
  else if held.length + 1 < blockCacheSize then return id :: held
  else throw .outOfBlockCache

@[irreducible] def add32 (a b : Nat) : FsM Nat := if a + b < 2 ^ 32 then return a + b else throw .overflow

@[irreducible] def sub32 (a b : Nat) : FsM Nat := if b ≤ a then return a - b else throw .overflow

def zeroBlock : Block := List.replicate blockSz 0

section
variable {held : List Nat} {id a b : Nat} {mem mem' : Memory} {E : FsFault → Prop}

theorem wp_lockBlock {Q : List Nat → Memory → Prop} (free : id ∉ held) (few : held.length < 15) :
    wp (lockBlock held id) Q E mem ↔ Q (id :: held) mem := by
  have room : held.length + 1 < blockCacheSize := by
    unfold blockCacheSize
    omega
  rw [lockBlock, if_neg free, if_pos room]
  exact Iff.rfl

theorem wp_add32 {Q : Nat → Memory → Prop} (fits : a + b < 2 ^ 32) : wp (add32 a b) Q E mem ↔ Q (a + b) mem := by
  rw [add32, if_pos fits]
  exact Iff.rfl

theorem wp_sub32 {Q : Nat → Memory → Prop} (fits : b ≤ a) : wp (sub32 a b) Q E mem ↔ Q (a - b) mem := by
  rw [sub32, if_pos fits]
  exact Iff.rfl

theorem wp_add32_cases {Q : Nat → Memory → Prop} (fits : a + b < 2 ^ 32 → Q (a + b) mem) (leaves : ¬a + b < 2 ^ 32 → E .overflow) :
    wp (add32 a b) Q E mem := by
  by_cases bound : a + b < 2 ^ 32
  · exact (wp_add32 bound).mpr (fits bound)
  · rw [add32, if_neg bound]
    exact leaves bound

theorem wp_sub32_cases {Q : Nat → Memory → Prop} (fits : b ≤ a → Q (a - b) mem) (leaves : ¬b ≤ a → E .overflow) :
    wp (sub32 a b) Q E mem := by
  by_cases bound : b ≤ a
  · exact (wp_sub32 bound).mpr (fits bound)
  · rw [sub32, if_neg bound]
    exact leaves bound

/-- The two disks differ at most in the blocks of `ids`. -/
def Outside (ids : List Nat) (mem mem' : Memory) : Prop := ∀ x, x / 512 ∉ ids → mem' x = mem x

theorem Outside.refl (ids : List Nat) (mem : Memory) : Outside ids mem mem := fun _ _ => rfl

theorem Outside.trans {ids : List Nat} {mem'' : Memory} (first : Outside ids mem mem') (second : Outside ids mem' mem'') :
    Outside ids mem mem'' := fun x out => (second x out).trans (first x out)

theorem Outside.mono {ids ids' : List Nat} (outside : Outside ids mem mem') (subset : ∀ id ∈ ids, id ∈ ids') :
    Outside ids' mem mem' := fun x out => outside x fun inside => out (subset _ inside)

theorem Outside.readNat {ids : List Nat} (outside : Outside ids mem mem') {width offset : Nat} (other : id ∉ ids)
    (inside : offset + width ≤ 512) :
    mem'.readNat width (blockAddr id + offset) = mem.readNat width (blockAddr id + offset) := by
  apply Memory.readNat_congr
  intro i small
  apply outside
  rwa [show (blockAddr id + offset + i) / 512 = id by unfold blockAddr blockSz; omega]

theorem store_outsideBlock {offset : Nat} {bytes : List UInt8} (inside : offset + bytes.length ≤ 512) :
    Outside [id] mem (mem.store (blockAddr id + offset) bytes) := by
  intro x out
  rw [List.mem_singleton] at out
  apply Memory.store_outside
  unfold blockAddr blockSz
  omega

theorem writeNat_outsideBlock {width offset value : Nat} (inside : offset + width ≤ 512) :
    Outside [id] mem (mem.writeNat width (blockAddr id + offset) value) :=
  store_outsideBlock (by simpa using inside)

end

end SecureIpc.EasyFs
