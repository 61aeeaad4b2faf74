import SecureIpc.EasyFs.Layout

/-! What is stored on the disk is what is loaded from it. -/

namespace SecureIpc.EasyFs
open Lib

section
variable {mem mem' : Memory} {addr : Nat}

/-! ### The super block -/

theorem SuperBlock.load_store (self : SuperBlock) (small : ∀ n ∈ [self.magic, self.totalBlocks, self.inodeBitmapBlocks,
    self.inodeAreaBlocks, self.dataBitmapBlocks, self.dataAreaBlocks], n < 2 ^ 32) : SuperBlock.load (self.store mem) = self := by
  have word : ∀ i (inside : i < 6), (self.store mem).readNat 4 (4 * i) = [self.magic, self.totalBlocks, self.inodeBitmapBlocks,
      self.inodeAreaBlocks, self.dataBitmapBlocks, self.dataAreaBlocks][i] := by
    intro i inside
    have entry := @Memory.readNat_store_numbers mem 4 0 [self.magic, self.totalBlocks, self.inodeBitmapBlocks,
      self.inodeAreaBlocks, self.dataBitmapBlocks, self.dataAreaBlocks] [] i inside (small _ (List.getElem_mem inside))
    rwa [List.append_nil, Nat.zero_add] at entry
  have fields := And.intro (word 0 (by decide)) (And.intro (word 1 (by decide)) (And.intro (word 2 (by decide))
    (And.intro (word 3 (by decide)) (And.intro (word 4 (by decide)) (word 5 (by decide))))))
  simp only [Nat.mul_zero, Nat.mul_one, Nat.reduceMul, List.getElem_cons_zero, List.getElem_cons_succ] at fields
  simp [SuperBlock.load, fields]

theorem SuperBlock.load_congr (same : ∀ x < 24, mem' x = mem x) : SuperBlock.load mem' = SuperBlock.load mem := by
  have word : ∀ a, a + 4 ≤ 24 → mem'.readNat 4 a = mem.readNat 4 a := fun a inside =>
    Memory.readNat_congr fun i small => same (a + i) (by omega)
  simp [SuperBlock.load, word]

/-! ### Inodes -/

structure DiskInode.Fits (inode : DiskInode) : Prop where
  size : inode.size < 2 ^ 32
  count : inode.direct.length = 28
  direct : ∀ id ∈ inode.direct, id < 2 ^ 32
  indirect1 : inode.indirect1 < 2 ^ 32
  indirect2 : inode.indirect2 < 2 ^ 32

def DiskInode.words (self : DiskInode) : List Nat := self.size :: self.direct ++ [self.indirect1, self.indirect2]

theorem DiskInode.store_eq (self : DiskInode) : self.store mem addr =
    mem.store addr (self.words.flatMap (toBytes 4) ++ [self.type.toByte]) := by
  simp [DiskInode.store, DiskInode.words]

theorem flatMap_toBytes_length (width : Nat) (numbers : List Nat) :
    (numbers.flatMap (toBytes width)).length = width * numbers.length := by
  induction numbers with
  | nil => rfl
  | cons number rest ih => simp [ih, Nat.mul_succ, Nat.add_comm]

theorem DiskInode.words_length {self : DiskInode} (fits : self.Fits) : self.words.length = 31 := by
  simp [DiskInode.words, fits.count]

theorem DiskInode.store_outside {self : DiskInode} (fits : self.Fits) {x : Nat} (outside : x < addr ∨ addr + 125 ≤ x) :
    self.store mem addr x = mem x := by
  rw [DiskInode.store_eq]
  apply Memory.store_outside
  simpa [flatMap_toBytes_length, DiskInode.words_length fits] using outside

theorem DiskInode.load_congr (same : ∀ i < 125, mem' (addr + i) = mem (addr + i)) : DiskInode.load mem' addr = DiskInode.load mem addr := by
  have word : ∀ offset, offset + 4 ≤ 125 → mem'.readNat 4 (addr + offset) = mem.readNat 4 (addr + offset) := fun offset inside =>
    Memory.readNat_congr fun i small => by
      rw [Nat.add_assoc]
      exact same (offset + i) (by omega)
  have direct : (List.range inodeDirectCount).map (fun i => mem'.readNat 4 (addr + 4 + 4 * i)) =
      (List.range inodeDirectCount).map fun i => mem.readNat 4 (addr + 4 + 4 * i) := by
    apply List.map_congr_left
    intro i inside
    have small : i < 28 := List.mem_range.mp inside
    rw [Nat.add_assoc]
    exact word (4 + 4 * i) (by omega)
  have first := word 0 (by decide)
  rw [Nat.add_zero] at first
  simp only [DiskInode.load, first, direct, word 116 (by decide), word 120 (by decide), same 124 (by decide)]

theorem DiskInode.words_small {self : DiskInode} (fits : self.Fits) : ∀ n ∈ self.words, n < 256 ^ 4 := by
  intro n member
  simp only [DiskInode.words, List.cons_append, List.mem_cons, List.mem_append, List.not_mem_nil, or_false] at member
  rcases member with rfl | direct | rfl | rfl
  · exact fits.size
  · exact fits.direct n direct
  · exact fits.indirect1
  · exact fits.indirect2

theorem DiskInode.load_store {self : DiskInode} (fits : self.Fits) : DiskInode.load (self.store mem addr) addr = self := by
  have length := DiskInode.words_length fits
  have word : ∀ i (inside : i < self.words.length), (self.store mem addr).readNat 4 (addr + 4 * i) = self.words[i] := by
    intro i inside
    rw [DiskInode.store_eq]
    exact Memory.readNat_store_numbers inside (DiskInode.words_small fits _ (List.getElem_mem inside))
  have size : (self.store mem addr).readNat 4 addr = self.size := word 0 (by omega)
  have direct : (List.range inodeDirectCount).map (fun i => (self.store mem addr).readNat 4 (addr + 4 + 4 * i)) = self.direct := by
    apply List.ext_getElem
    · simp [inodeDirectCount, fits.count]
    · intro i bound inside
      have small : i < 28 := fits.count ▸ inside
      have entry := word (i + 1) (by omega)
      rw [List.getElem_map, List.getElem_range, show addr + 4 + 4 * i = addr + 4 * (i + 1) by omega, entry]
      simp [DiskInode.words, List.getElem_append_left inside]
  have indirect1 : (self.store mem addr).readNat 4 (addr + 116) = self.indirect1 := by
    have entry := word 29 (by omega)
    simpa [DiskInode.words, List.getElem_append_right, fits.count] using entry
  have indirect2 : (self.store mem addr).readNat 4 (addr + 120) = self.indirect2 := by
    have entry := word 30 (by omega)
    simpa [DiskInode.words, List.getElem_append_right, fits.count] using entry
  have type : self.store mem addr (addr + 124) = self.type.toByte := by
    have bytes : (self.words.flatMap (toBytes 4)).length = 124 := by rw [flatMap_toBytes_length, length]
    rw [DiskInode.store_eq, Memory.store_inside (by simp [bytes])]
    simp [List.getElem_append_right, bytes]
  cases self with
  | mk _ _ _ _ kind =>
    simp only at size direct indirect1 indirect2 type
    simp only [DiskInode.load, size, direct, indirect1, indirect2, type]
    cases kind <;> simp [DiskInodeType.toByte]

theorem DiskInode.initialized_fits (type : DiskInodeType) : (DiskInode.initialized type).Fits := by
  refine ⟨?_, ?_, ?_, ?_, ?_⟩ <;> simp [DiskInode.initialized, inodeDirectCount]

end

end SecureIpc.EasyFs
