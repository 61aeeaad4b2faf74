import SecureIpc.EasyFs.Codec
import SecureIpc.EasyFs.Efs

/-! What `create` leaves on the disk. -/

namespace SecureIpc.EasyFs
open Lib

def inodeArea (ib : Nat) : Nat := ib * 1024 % 2 ^ 32

def dataTotal (total ib : Nat) : Nat := total - 1 - (ib + inodeArea ib)

def dataBitmapArea (total ib : Nat) : Nat := (dataTotal total ib + 4096) / 4097

def dataArea (total ib : Nat) : Nat := dataTotal total ib - dataBitmapArea total ib

/-- No number that `create` computes leaves its type. -/
structure Sized (total ib : Nat) : Prop where
  room : 1 + ib + inodeArea ib ≤ total
  bitmap : dataTotal total ib + 4096 < 2 ^ 32

def formatted (total ib : Nat) : EasyFileSystem where
  inodeBitmap := ⟨1, ib⟩
  dataBitmap := ⟨1 + (ib + inodeArea ib), dataBitmapArea total ib⟩
  inodeAreaStartBlock := 1 + ib
  dataAreaStartBlock := 1 + (ib + inodeArea ib) + dataBitmapArea total ib

section
variable {total ib : Nat}

theorem Sized.areas (sized : Sized total ib) :
    1 + (ib + inodeArea ib) + dataBitmapArea total ib + dataArea total ib = total := by
  have room := sized.room
  unfold dataArea dataBitmapArea dataTotal
  omega

def formattedSuper (total ib : Nat) : SuperBlock :=
  ⟨efsMagic, total, ib, inodeArea ib, dataBitmapArea total ib, dataArea total ib⟩

structure Formatted (total ib : Nat) (mem : Memory) : Prop where
  sized : Sized total ib
  inodes : 0 < ib
  superBlock : SuperBlock.load mem = formattedSuper total ib
  inodeBit : ∀ n < ib * 4096, (formatted total ib).inodeBitmap.bit mem n = decide (n = 0)
  root : DiskInode.load mem (blockAddr (1 + ib)) = .initialized .directory
  zero : ∀ x, blockAddr (1 + ib) ≤ x → x < blockAddr total → x ≠ blockAddr (1 + ib) + 124 → mem x = 0

end

section
variable {mem mem' : Memory} {total ib : Nat}

theorem areaSizes_spec (small : total < 2 ^ 32) : wp (EasyFileSystem.areaSizes total ib) (fun sizes mem' => mem' = mem ∧
    Sized total ib ∧ sizes = (inodeArea ib, dataBitmapArea total ib, dataArea total ib)) (fun _ => ¬Sized total ib) mem := by
  have blocks : (ib * blockBits * diskInodeSize + blockSz - 1) / blockSz % 2 ^ 32 = inodeArea ib := by
    unfold blockBits diskInodeSize blockSz inodeArea
    omega
  have unfolded : total - 1 - (ib + inodeArea ib) = dataTotal total ib := rfl
  have less : (dataTotal total ib + 4096) / 4097 ≤ dataTotal total ib := by omega
  have room : Sized total ib → ib + inodeArea ib < 2 ^ 32 ∧ 1 ≤ total ∧ ib + inodeArea ib ≤ total - 1 := fun sized => by
    have := sized.room
    omega
  unfold EasyFileSystem.areaSizes
  extract_lets inodeNum inodeAreaBlocks
  rw [show inodeAreaBlocks = inodeArea ib from blocks]
  refine wp_bind.mpr (wp_add32_cases (fun _ => ?_) fun large sized => large (room sized).1)
  refine wp_bind.mpr (wp_sub32_cases (fun _ => ?_) fun large sized => large (room sized).2.1)
  refine wp_bind.mpr (wp_sub32_cases (fun enough => ?_) fun large sized => large (room sized).2.2)
  rw [unfolded]
  generalize bits : 4096 = perBlock
  refine wp_bind.mpr (wp_add32_cases (fun fits => ?_) fun large sized => large (bits ▸ sized.bitmap))
  subst bits
  rw [wp_bind, wp_sub32 less]
  exact ⟨rfl, ⟨by omega, fits⟩, rfl⟩

theorem ofSizes_spec {ia db : Nat} (small : 1 + (ib + ia) + db < 2 ^ 32) : wp (EasyFileSystem.ofSizes ib ia db) (fun fs mem' =>
    mem' = mem ∧ fs = ⟨⟨1, ib⟩, ⟨1 + (ib + ia), db⟩, 1 + ib, 1 + (ib + ia) + db⟩) (fun _ => False) mem := by
  have first : ib + ia < 2 ^ 32 := by omega
  have second : 1 + (ib + ia) < 2 ^ 32 := by omega
  have third : 1 + ib < 2 ^ 32 := by omega
  simp only [EasyFileSystem.ofSizes, wp_bind, wp_add32 first, wp_add32 second, wp_add32 third, wp_add32 small, wp_pure, and_self]

theorem zeroBlock_length : zeroBlock.length = 512 := List.length_replicate

theorem store_zeroBlock (mem : Memory) (id x : Nat) : mem.store (blockAddr id) zeroBlock x = if x / 512 = id then 0 else mem x := by
  have length := zeroBlock_length
  split
  · next here =>
    obtain ⟨i, inside, rfl⟩ : ∃ i, i < zeroBlock.length ∧ x = blockAddr id + i :=
      ⟨x % 512, by omega, by unfold blockAddr blockSz; omega⟩
    rw [Memory.store_inside inside]
    exact List.getElem_replicate _
  · next other =>
    apply Memory.store_outside
    unfold blockAddr blockSz
    omega

theorem clearBlocks_spec (count id : Nat) : wp (EasyFileSystem.clearBlocks count id) (fun _ mem' => ∀ x, mem' x =
    if id ≤ x / 512 ∧ x / 512 < id + count then 0 else mem x) (fun _ => False) mem := by
  induction count generalizing id mem with
  | zero =>
    intro x
    rw [if_neg (by omega)]
  | succ count ih =>
    simp only [EasyFileSystem.clearBlocks, EasyFileSystem.clearBlock, wp_bind, wp_lockBlock (List.not_mem_nil) (by decide : [].length < 15),
      wp_modify]
    refine wp_mono (ih (id + 1)) ?_ fun _ impossible => impossible
    intro _ mem' cleared x
    rw [cleared x, store_zeroBlock]
    by_cases here : x / 512 = id
    · rw [if_pos here, if_pos (show id ≤ x / 512 ∧ x / 512 < id + (count + 1) by omega), ite_self]
    · rw [if_neg here]
      have same : id + 1 ≤ x / 512 ∧ x / 512 < id + 1 + count ↔ id ≤ x / 512 ∧ x / 512 < id + (count + 1) := by omega
      simp only [same]

theorem bit_zero {self : Bitmap} {n : Nat} (zero : ∀ i < 8, mem (blockAddr self.startBlockId + 8 * (n / 64) + i) = 0) :
    self.bit mem n = false := by
  have word : mem.readWord (blockAddr self.startBlockId + 8 * (n / 64)) = 0 := Memory.readNat_zero zero
  rw [Bitmap.bit, word, Nat.zero_testBit]

theorem initialized_words (type : DiskInodeType) : (DiskInode.initialized type).words = List.replicate 31 0 := rfl

theorem initialized_zero {type : DiskInodeType} {addr x : Nat} (zero : mem x = 0) (other : x ≠ addr + 124) :
    (DiskInode.initialized type).store mem addr x = 0 := by
  have zeros : (List.replicate 31 0).flatMap (toBytes 4) = List.replicate 124 0 := by decide
  rw [DiskInode.store_eq, initialized_words, zeros]
  by_cases inside : addr ≤ x ∧ x < addr + 124
  · obtain ⟨i, rfl⟩ := Nat.exists_eq_add_of_le inside.1
    have short : i < (List.replicate 124 (0 : UInt8)).length := by
      rw [List.length_replicate]
      omega
    rw [Memory.store_inside (by rw [List.length_append]; omega), List.getElem_append_left short, List.getElem_replicate]
  · rw [Memory.store_outside, zero]
    rw [List.length_append, List.length_replicate]
    simp only [List.length_singleton]
    omega

theorem superBlock_store_outside {self : SuperBlock} {x : Nat} (outside : 24 ≤ x) : self.store mem x = mem x := by
  apply Memory.store_outside
  simp only [flatMap_toBytes_length, List.length_cons, List.length_nil]
  omega

theorem getDiskInodePos_spec {self : EasyFileSystem} {n : Nat} {Q : Nat × Nat → Memory → Prop} {E : FsFault → Prop}
    (small : n < 2 ^ 32) (fits : self.inodeAreaStartBlock + n / 4 < 2 ^ 32) :
    wp (self.getDiskInodePos n) Q E mem ↔ Q (self.inodeAreaStartBlock + n / 4, n % 4 * 128) mem := by
  rw [EasyFileSystem.getDiskInodePos, show blockSz / diskInodeSize = 4 from rfl, Nat.mod_eq_of_lt small, wp_bind, wp_add32 fits]
  exact Iff.rfl

/-- The disk before the root inode is made: it holds the super block, and is zero behind it. -/
structure Headed (total ib : Nat) (mem : Memory) : Prop where
  superBlock : SuperBlock.load mem = formattedSuper total ib
  zero : ∀ x, 24 ≤ x → x < blockAddr total → mem x = 0

theorem Headed.store (small : total < 2 ^ 32) (sized : Sized total ib)
    (cleared : ∀ x, mem x = if 0 ≤ x / 512 ∧ x / 512 < 0 + total then 0 else mem' x) :
    Headed total ib ((formattedSuper total ib).store mem) where
  superBlock := by
    have areas := sized.areas
    have inodeArea_lt : inodeArea ib < 2 ^ 32 := Nat.mod_lt _ (by decide)
    apply SuperBlock.load_store
    simp only [formattedSuper, List.mem_cons, List.not_mem_nil, or_false, forall_eq_or_imp, forall_eq]
    refine ⟨by decide, small, ?_, inodeArea_lt, ?_, ?_⟩ <;> omega
  zero x above inside := by
    unfold blockAddr blockSz at inside
    rw [superBlock_store_outside above, cleared x, if_pos (by omega)]

theorem Headed.clear (headed : Headed total ib mem) (sized : Sized total ib) :
    ∀ n < ib * 4096, (formatted total ib).inodeBitmap.bit mem n = false := by
  intro n inside
  apply bit_zero
  intro i low
  have bound := sized.room
  have start : (formatted total ib).inodeBitmap.startBlockId = 1 := rfl
  apply headed.zero
  all_goals
    rw [start]
    unfold blockAddr blockSz
    omega

/-- The root inode is taken, and stored as a directory. -/
theorem Headed.formatted (headed : Headed total ib mem) (sized : Sized total ib) (inodes : 0 < ib)
    (changes : (formatted total ib).inodeBitmap.Changes mem mem' 0 true) :
    Formatted total ib ((DiskInode.initialized .directory).store mem' (blockAddr (1 + ib))) := by
  have fits := DiskInode.initialized_fits .directory
  have low : ∀ x, x < blockAddr (1 + ib) → (DiskInode.initialized .directory).store mem' (blockAddr (1 + ib)) x = mem' x :=
    fun x below => DiskInode.store_outside fits (Or.inl below)
  have block : ∀ x, x < 512 ∨ blockAddr (1 + ib) ≤ x → mem' x = mem x := fun x out => by
    apply changes.outside
    rw [mem_ids]
    unfold EasyFs.formatted
    unfold blockAddr blockSz at out
    dsimp only
    omega
  refine ⟨sized, inodes, ?_, ?_, DiskInode.load_store fits, ?_⟩
  · rw [← headed.superBlock]
    apply SuperBlock.load_congr
    intro x header
    rw [low x (by unfold blockAddr blockSz; omega), block x (by omega)]
  · intro m bound
    have size : (EasyFs.formatted total ib).inodeBitmap.maximum = ib * 4096 := Bitmap.maximum_eq _
    have same := @Bitmap.bit_congr (EasyFs.formatted total ib).inodeBitmap mem' _ m (by omega) fun x inside => low x (by
      rw [mem_ids] at inside
      unfold EasyFs.formatted at inside
      unfold blockAddr blockSz
      dsimp only at inside
      omega)
    rw [same, changes.bit m, headed.clear sized m bound]
    by_cases first : m = 0
    · simp [first]
    · simp [first]
  · intro x above below other
    refine initialized_zero ?_ other
    rw [block x (Or.inr above)]
    exact headed.zero x (by unfold blockAddr blockSz at above; omega) below

/-- What `create` writes on a cleared disk, and that it stops only when a size leaves its type or there are no
inodes. -/
theorem create_spec (small : total < 2 ^ 32) : wp (EasyFileSystem.create total ib) (fun fs mem' => fs = formatted total ib ∧
    Formatted total ib mem') (fun _ => ¬(Sized total ib ∧ 0 < ib)) mem := by
  unfold EasyFileSystem.create
  refine wp_bind.mpr (wp_mono (areaSizes_spec small) ?_ fun _ large both => large both.1)
  rintro _ _ ⟨rfl, sized, rfl⟩
  have areas := sized.areas
  refine wp_bind.mpr (wp_mono (ofSizes_spec (by omega)) ?_ fun _ impossible => impossible.elim)
  rintro fs _ ⟨rfl, made⟩
  obtain rfl : fs = formatted total ib := made
  refine wp_bind.mpr (wp_mono (clearBlocks_spec total 0) ?_ fun _ impossible => impossible.elim)
  intro _ mem₀ cleared
  simp only [wp_bind, wp_lockBlock (List.not_mem_nil) (by decide : [].length < 15), wp_modify]
  have headed := Headed.store small sized cleared
  have size : (formatted total ib).inodeBitmap.maximum = ib * 4096 := Bitmap.maximum_eq _
  have bits : ∀ m < (formatted total ib).inodeBitmap.maximum,
      (formatted total ib).inodeBitmap.bit ((formattedSuper total ib).store mem₀) m = decide (m < 0) := by
    intro m inside
    rw [headed.clear sized m (size ▸ inside), decide_eq_false (Nat.not_lt_zero m)]
  unfold EasyFileSystem.allocInode
  refine wp_bind.mpr (wp_mono (alloc_next bits (by simp) (by decide)) ?_ fun _ impossible => impossible.elim)
  rw [size]
  rintro _ mem₂ (⟨rfl, full⟩ | ⟨rfl, inside, changes⟩)
  · rintro ⟨_, inodes⟩
    omega
  · simp only [wp_pure, wp_bind, wp_ite]
    rw [if_pos (Nat.zero_mod _), getDiskInodePos_spec (by decide) (by simp [formatted]; omega)]
    simp only [EasyFileSystem.storeInode, wp_bind, wp_lockBlock (List.not_mem_nil) (by decide : [].length < 15)]
    rw [if_pos (by decide)]
    simp only [wp_modify, true_and]
    have place : blockAddr ((formatted total ib).inodeAreaStartBlock + 0 / 4) + 0 % 4 * 128 = blockAddr (1 + ib) := by
      simp [formatted]
    rw [place]
    exact headed.formatted sized (by omega) changes

theorem create_returns (small : total < 2 ^ 32) (sized : Sized total ib) (inodes : 0 < ib) (mem : Memory) :
    ∃ mem', EasyFileSystem.create total ib mem = .ok (formatted total ib, mem') ∧ Formatted total ib mem' := by
  obtain ⟨fs, mem', run, rfl, disk⟩ := wp_returns_of (@create_spec mem total ib small) fun _ fails => fails ⟨sized, inodes⟩
  exact ⟨mem', run, disk⟩

/-- The data bitmap of a new file system is clear. Where the inode area has wrapped to nothing, the root inode lies in
the bitmap, and its type sets a bit of the sixteenth word. -/
theorem Formatted.dataBit (disk : Formatted total ib mem) {n : Nat} (inside : n < (formatted total ib).dataBitmap.maximum)
    (other : 0 < inodeArea ib ∨ n / 64 ≠ 15) : (formatted total ib).dataBitmap.bit mem n = false := by
  have areas := disk.sized.areas
  have data : (formatted total ib).dataBitmap.maximum = dataBitmapArea total ib * 4096 := Bitmap.maximum_eq _
  apply bit_zero
  intro i low
  have start : (formatted total ib).dataBitmap.startBlockId = 1 + (ib + inodeArea ib) := rfl
  rw [start]
  apply disk.zero
  all_goals
    unfold blockAddr blockSz
    omega

theorem Formatted.spare (fits : total < 2 ^ 32) (disk : Formatted total ib mem) (uneven : dataTotal total ib % 4097 ≠ 0) :
    ∃ t, dataArea total ib ≤ t ∧ t < (formatted total ib).dataBitmap.maximum ∧
      t + (formatted total ib).dataAreaStartBlock < 2 ^ 32 ∧ (formatted total ib).dataBitmap.bit mem t = false := by
  have areas := disk.sized.areas
  have data : (formatted total ib).dataBitmap.maximum = dataBitmapArea total ib * 4096 := Bitmap.maximum_eq _
  have start : (formatted total ib).dataAreaStartBlock = 1 + (ib + inodeArea ib) + dataBitmapArea total ib := rfl
  have rest : dataArea total ib = dataTotal total ib - dataBitmapArea total ib := rfl
  have bitmap : dataBitmapArea total ib = (dataTotal total ib + 4096) / 4097 := rfl
  by_cases plain : 0 < inodeArea ib ∨ dataArea total ib / 64 ≠ 15
  · exact ⟨dataArea total ib, Nat.le_refl _, by omega, by omega, disk.dataBit (by omega) plain⟩
  · have wraps : ib * 1024 % 2 ^ 32 = 0 := by
      have area : inodeArea ib = ib * 1024 % 2 ^ 32 := rfl
      omega
    exact ⟨1024, by omega, by omega, by omega, disk.dataBit (by omega) (Or.inr (by decide))⟩

end

end SecureIpc.EasyFs
