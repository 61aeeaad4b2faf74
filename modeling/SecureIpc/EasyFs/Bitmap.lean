import SecureIpc.EasyFs.Disk

/-! The allocation bitmaps: consecutive blocks of 64-bit words. -/

namespace SecureIpc.EasyFs
open Lib

def blockBits : Nat := blockSz * 8

structure Bitmap where
  startBlockId : Nat
  blocks : Nat
  deriving DecidableEq, Repr

def decomposition (bit : Nat) : Nat × Nat × Nat := (bit / blockBits, bit % blockBits / 64, bit % blockBits % 64)

namespace Bitmap

def bitmapBlock (mem : Memory) (id : Nat) : List Nat := (List.range 64).map fun i => mem.readWord (blockAddr id + 8 * i)

/-- The closure of `alloc`: takes the first clear bit of one block. -/
def allocIn (self : Bitmap) (held : List Nat) (blockId : Nat) : FsM (Option Nat) := do
  let id := blockId + self.startBlockId
  let _ ← lockBlock held id
  let words ← Program.read (bitmapBlock · id)
  match words.findIdx? fun bits64 => bits64 != u64Max with
  | none => return none
  | some bits64Pos =>
    let bits64 := words.getD bits64Pos 0
    let innerPos := trailingOnes 64 bits64
    modify fun mem : Memory => mem.writeWord (blockAddr id + 8 * bits64Pos) (bits64 ||| 1 <<< innerPos)
    return some (blockId * blockBits + bits64Pos * 64 + innerPos)

def allocFrom (self : Bitmap) (held : List Nat) : Nat → Nat → FsM (Option Nat)
  | 0, _ => return none
  | count + 1, blockId => do
    match ← self.allocIn held blockId with
    | some bit => return some bit
    | none => allocFrom self held count (blockId + 1)

def alloc (self : Bitmap) (held : List Nat) : FsM (Option Nat) := self.allocFrom held self.blocks 0

def dealloc (self : Bitmap) (held : List Nat) (bit : Nat) : FsM Unit := do
  let (blockPos, bits64Pos, innerPos) := decomposition bit
  let id := blockPos + self.startBlockId
  let _ ← lockBlock held id
  let bits64 ← Program.read fun mem : Memory => mem.readWord (blockAddr id + 8 * bits64Pos)
  if 0 < bits64 &&& 1 <<< innerPos then
    modify fun mem : Memory => mem.writeWord (blockAddr id + 8 * bits64Pos) (bits64 - 1 <<< innerPos)
  else throw .assertion

def maximum (self : Bitmap) : Nat := self.blocks * blockBits

/-! ### The bits -/

/-- Bit `n` of the bitmap; the words of consecutive blocks are consecutive. -/
def bit (self : Bitmap) (mem : Memory) (n : Nat) : Bool := (mem.readWord (blockAddr self.startBlockId + 8 * (n / 64))).testBit (n % 64)

def ids (self : Bitmap) : List Nat := List.range' self.startBlockId self.blocks

/-- The bit `n`, and nothing else, has become `value`. -/
structure Changes (bitmap : Bitmap) (mem mem' : Memory) (n : Nat) (value : Bool) : Prop where
  bit : ∀ m, bitmap.bit mem' m = if m = n then value else bitmap.bit mem m
  outside : Outside bitmap.ids mem mem'

end Bitmap

section
variable {self : Bitmap} {mem mem' : Memory} {held : List Nat} {n : Nat}

theorem mem_ids {id : Nat} : id ∈ self.ids ↔ self.startBlockId ≤ id ∧ id < self.startBlockId + self.blocks :=
  List.mem_range'_1

theorem Bitmap.maximum_eq (self : Bitmap) : self.maximum = self.blocks * 4096 := by
  simp [maximum, blockBits, blockSz]

theorem Bitmap.bit_congr (inside : n < self.maximum) (same : ∀ x, x / 512 ∈ self.ids → mem' x = mem x) :
    self.bit mem' n = self.bit mem n := by
  have size := self.maximum_eq
  have word : mem'.readWord (blockAddr self.startBlockId + 8 * (n / 64)) = mem.readWord (blockAddr self.startBlockId + 8 * (n / 64)) := by
    apply Memory.readWord_congr
    intro i low
    apply same
    rw [mem_ids]
    unfold blockAddr blockSz
    omega
  rw [Bitmap.bit, word, Bitmap.bit]

/-- The word of a bit, through its block and through the whole bitmap. -/
theorem wordAddr {start blockId pos : Nat} (here : n / 4096 = blockId) (slot : n % 4096 / 64 = pos) :
    blockAddr (blockId + start) + 8 * pos = blockAddr start + 8 * (n / 64) := by
  unfold blockAddr blockSz
  omega

theorem writeWord_changes {word : Nat} (small : word < 2 ^ 64) (inside : n < self.maximum) {value : Bool}
    (bits : ∀ i < 64, word.testBit i =
      if i = n % 64 then value else (mem.readWord (blockAddr self.startBlockId + 8 * (n / 64))).testBit i) :
    self.Changes mem (mem.writeWord (blockAddr self.startBlockId + 8 * (n / 64)) word) n value := by
  constructor
  · intro m
    unfold Bitmap.bit
    by_cases same : m / 64 = n / 64
    · rw [same, Memory.readWord_writeWord_same, Nat.mod_eq_of_lt small, bits _ (Nat.mod_lt m (by decide))]
      have equal : m % 64 = n % 64 ↔ m = n := by omega
      simp only [equal]
    · rw [Memory.readWord_writeWord_other (by omega), if_neg (by rintro rfl; exact same rfl)]
  · intro x out
    rw [mem_ids] at out
    apply Memory.writeWord_outside
    unfold Bitmap.maximum blockBits blockSz at inside
    unfold blockAddr blockSz
    omega

theorem bitmapBlock_getElem {id i : Nat} (inside : i < (Bitmap.bitmapBlock mem id).length) :
    (Bitmap.bitmapBlock mem id)[i] = mem.readWord (blockAddr id + 8 * i) := by
  simp [Bitmap.bitmapBlock]

theorem bitmapBlock_length (id : Nat) : (Bitmap.bitmapBlock mem id).length = 64 := by
  simp [Bitmap.bitmapBlock]

theorem bit_eq {blockId : Nat} (here : n / 4096 = blockId) : self.bit mem n =
    (mem.readWord (blockAddr (blockId + self.startBlockId) + 8 * (n % 4096 / 64))).testBit (n % 64) := by
  rw [Bitmap.bit, wordAddr here rfl]

theorem full_bit {i : Nat} (small : i < 64) : u64Max.testBit i = true := by
  have bits : u64Max.testBit i = decide (i < 64) := Nat.testBit_two_pow_sub_one 64 i
  rw [bits]
  exact decide_eq_true small

/-- One block: its first clear bit is taken. -/
theorem allocIn_spec {blockId : Nat} (inside : blockId < self.blocks) (free : blockId + self.startBlockId ∉ held)
    (few : held.length < 15) : wp (self.allocIn held blockId) (fun r mem' => match r with
      | none => mem' = mem ∧ ∀ n, n / 4096 = blockId → self.bit mem n = true
      | some n => n / 4096 = blockId ∧ self.bit mem n = false ∧ (∀ m, m / 4096 = blockId → m < n → self.bit mem m = true) ∧
        self.Changes mem mem' n true) (fun _ => False) mem := by
  unfold Bitmap.allocIn
  simp only [wp_bind, wp_lockBlock free few, wp_read]
  cases found : (Bitmap.bitmapBlock mem (blockId + self.startBlockId)).findIdx? fun bits64 => bits64 != u64Max with
  | none =>
    rw [List.findIdx?_eq_none_iff] at found
    refine ⟨rfl, fun n here => ?_⟩
    have low : n % 4096 / 64 < 64 := by omega
    have word := found (mem.readWord (blockAddr (blockId + self.startBlockId) + 8 * (n % 4096 / 64)))
      (List.mem_map.mpr ⟨_, List.mem_range.mpr low, rfl⟩)
    rw [bit_eq here, bne_eq_false_iff_eq.mp word]
    exact full_bit (Nat.mod_lt n (by decide))
  | some pos =>
    obtain ⟨bound, room, before⟩ := List.findIdx?_eq_some_iff_getElem.mp found
    have small : pos < 64 := by rwa [bitmapBlock_length] at bound
    have word : (Bitmap.bitmapBlock mem (blockId + self.startBlockId)).getD pos 0 =
        mem.readWord (blockAddr (blockId + self.startBlockId) + 8 * pos) := by
      rw [List.getD_eq_getElem _ _ bound, bitmapBlock_getElem]
    rw [bitmapBlock_getElem, bne_iff_ne] at room
    simp only [word, wp_bind, wp_modify, wp_pure]
    generalize bits : mem.readWord (blockAddr (blockId + self.startBlockId) + 8 * pos) = bits64 at room
    have limit : bits64 < 2 ^ 64 := bits ▸ Memory.readWord_lt mem _
    obtain ⟨inner, clear⟩ := trailingOnes_zero limit room
    generalize position : trailingOnes 64 bits64 = innerPos at inner clear
    have number : blockId * blockBits + pos * 64 + innerPos = blockId * 4096 + pos * 64 + innerPos := rfl
    rw [number]
    generalize chosen : blockId * 4096 + pos * 64 + innerPos = n
    have here : n / 4096 = blockId := by omega
    have slot : n % 4096 / 64 = pos := by omega
    have place : n % 64 = innerPos := by omega
    refine ⟨here, ?_, ?_, ?_⟩
    · rw [bit_eq here, slot, place, bits]
      exact clear
    · intro m there earlier
      rw [bit_eq there]
      by_cases same : m % 4096 / 64 = pos
      · rw [same, bits]
        apply trailingOnes_ones
        rw [position]
        omega
      · have full := before (m % 4096 / 64) (by omega)
        rw [bitmapBlock_getElem, bne_iff_ne, not_not] at full
        rw [full]
        exact full_bit (Nat.mod_lt m (by decide))
    · rw [wordAddr here slot] at bits ⊢
      have max : n < self.maximum := by
        unfold Bitmap.maximum blockBits blockSz
        omega
      apply writeWord_changes (set_lt limit inner) max
      intro i _
      rw [testBit_set, bits, place]
      by_cases equal : i = innerPos
      · simp [equal]
      · simp [equal]

theorem allocFrom_spec {count blockId : Nat} (inside : blockId + count = self.blocks) (free : ∀ id ∈ self.ids, id ∉ held)
    (few : held.length < 15) : wp (self.allocFrom held count blockId) (fun r mem' => match r with
      | none => mem' = mem ∧ ∀ n, blockId * 4096 ≤ n → n < self.maximum → self.bit mem n = true
      | some n => blockId * 4096 ≤ n ∧ n < self.maximum ∧ self.bit mem n = false ∧
        (∀ m, blockId * 4096 ≤ m → m < n → self.bit mem m = true) ∧ self.Changes mem mem' n true) (fun _ => False) mem := by
  have size := self.maximum_eq
  induction count generalizing blockId with
  | zero => exact ⟨rfl, fun n above below => by omega⟩
  | succ count ih =>
    have mine : blockId + self.startBlockId ∈ self.ids := mem_ids.mpr (by omega)
    unfold Bitmap.allocFrom
    apply wp_bind.mpr
    refine wp_mono (allocIn_spec (by omega) (free _ mine) few) ?_ fun _ impossible => impossible
    intro r mem₁ result
    cases r with
    | some n =>
      obtain ⟨here, clear, before, changes⟩ := result
      exact ⟨by omega, by omega, clear, fun m above earlier => before m (by omega) earlier, changes⟩
    | none =>
      obtain ⟨rfl, full⟩ := result
      refine wp_mono (ih (by omega)) ?_ fun _ impossible => impossible
      intro r mem' later
      have first : ∀ m, blockId * 4096 ≤ m → ¬(blockId + 1) * 4096 ≤ m → self.bit mem₁ m = true := fun m above below =>
        full m (by omega)
      cases r with
      | none =>
        obtain ⟨same, rest⟩ := later
        refine ⟨same, fun n above below => ?_⟩
        by_cases next : (blockId + 1) * 4096 ≤ n
        · exact rest n next below
        · exact first n above next
      | some n =>
        obtain ⟨above, below, clear, before, changes⟩ := later
        refine ⟨Nat.le_trans (Nat.mul_le_mul_right _ (Nat.le_succ _)) above, below, clear, fun m low earlier => ?_, changes⟩
        by_cases next : (blockId + 1) * 4096 ≤ m
        · exact before m next earlier
        · exact first m low next

/-- `alloc` takes the first clear bit; it returns nothing when all are set. -/
theorem alloc_spec (free : ∀ id ∈ self.ids, id ∉ held) (few : held.length < 15) :
    wp (self.alloc held) (fun r mem' => match r with
      | none => mem' = mem ∧ ∀ n < self.maximum, self.bit mem n = true
      | some n => n < self.maximum ∧ self.bit mem n = false ∧ (∀ m < n, self.bit mem m = true) ∧ self.Changes mem mem' n true)
      (fun _ => False) mem := by
  refine wp_mono (allocFrom_spec (Nat.zero_add _) free few) ?_ fun _ impossible => impossible
  intro r mem' result
  cases r with
  | none => exact ⟨result.1, fun n below => result.2 n (by omega) below⟩
  | some n => exact ⟨result.2.1, result.2.2.1, fun m => result.2.2.2.1 m (by omega), result.2.2.2.2⟩

/-- Where the bits below `taken` are set and no others, `alloc` takes the bit `taken`. -/
theorem alloc_next {taken : Nat} (bits : ∀ m < self.maximum, self.bit mem m = decide (m < taken)) (free : ∀ id ∈ self.ids, id ∉ held)
    (few : held.length < 15) : wp (self.alloc held) (fun r mem' => r = none ∧ self.maximum ≤ taken ∨
      r = some taken ∧ taken < self.maximum ∧ self.Changes mem mem' taken true) (fun _ => False) mem := by
  refine wp_mono (alloc_spec free few) ?_ fun _ impossible => impossible
  intro r mem' result
  cases r with
  | none =>
    refine Or.inl ⟨rfl, ?_⟩
    by_contra room
    have set := result.2 taken (by omega)
    rw [bits taken (by omega), decide_eq_true_iff] at set
    omega
  | some n =>
    obtain ⟨inside, clear, before, changes⟩ := result
    rw [bits n inside, decide_eq_false_iff_not] at clear
    obtain rfl : n = taken := by
      by_contra other
      have set := before taken (by omega)
      rw [bits taken (by omega), decide_eq_true_iff] at set
      omega
    exact Or.inr ⟨rfl, inside, changes⟩

theorem dealloc_spec (inside : n < self.maximum) (set : self.bit mem n = true) (free : ∀ id ∈ self.ids, id ∉ held)
    (few : held.length < 15) : wp (self.dealloc held n) (fun _ mem' => self.Changes mem mem' n false) (fun _ => False) mem := by
  have size := self.maximum_eq
  have mine : n / blockBits + self.startBlockId ∈ self.ids := mem_ids.mpr (by unfold blockBits blockSz; omega)
  have addr : blockAddr (n / blockBits + self.startBlockId) + 8 * (n % blockBits / 64) =
      blockAddr self.startBlockId + 8 * (n / 64) := wordAddr rfl rfl
  have place : n % blockBits % 64 = n % 64 := by
    unfold blockBits blockSz
    omega
  unfold Bitmap.dealloc decomposition
  simp only [wp_bind, wp_lockBlock (free _ mine) few, wp_read, addr, place]
  have present : (mem.readWord (blockAddr self.startBlockId + 8 * (n / 64))).testBit (n % 64) = true := set
  rw [if_pos (and_bit.mpr present)]
  have limit := Memory.readWord_lt mem (blockAddr self.startBlockId + 8 * (n / 64))
  apply writeWord_changes (Nat.lt_of_le_of_lt (Nat.sub_le _ _) limit) inside
  intro i _
  rw [testBit_clear present]
  by_cases equal : i = n % 64
  · simp [equal]
  · simp [equal]

end

end SecureIpc.EasyFs
