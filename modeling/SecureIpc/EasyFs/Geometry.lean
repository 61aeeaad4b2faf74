import SecureIpc.EasyFs.Format
import SecureIpc.EasyFs.Vfs

/-! The areas of a disk with room for all its inodes, and the data blocks in use as the bitmap records them. -/

namespace SecureIpc.EasyFs
open Lib

/-- Sizes for which `create` returns and the inode area, whose size is computed modulo `2 ^ 32`, holds all inodes. -/
structure Geometry where
  total : Nat
  ib : Nat
  small : total < 2 ^ 32
  sized : Sized total ib
  inodes : 0 < ib
  whole : ib * 1024 < 2 ^ 32

namespace Geometry
variable (geo : Geometry)

def fs : EasyFileSystem := formatted geo.total geo.ib

def bitmapStart : Nat := 1 + (geo.ib + geo.ib * 1024)

def dataStart : Nat := geo.bitmapStart + dataBitmapArea geo.total geo.ib

def bits : Nat := dataBitmapArea geo.total geo.ib * 4096

def capacity : Nat := dataArea geo.total geo.ib

def place (n : Nat) : Inode := ⟨1 + geo.ib + n / 4, n % 4 * 128⟩

theorem inodeArea_eq : inodeArea geo.ib = geo.ib * 1024 := Nat.mod_eq_of_lt geo.whole

theorem fs_eq : geo.fs = ⟨⟨1, geo.ib⟩, ⟨geo.bitmapStart, dataBitmapArea geo.total geo.ib⟩, 1 + geo.ib, geo.dataStart⟩ := by
  simp [fs, formatted, inodeArea_eq, dataStart, bitmapStart]

@[simp] theorem inodeBitmap_eq : geo.fs.inodeBitmap = ⟨1, geo.ib⟩ := rfl

@[simp] theorem inodeAreaStart_eq : geo.fs.inodeAreaStartBlock = 1 + geo.ib := rfl

theorem dataBitmap_eq : geo.fs.dataBitmap = ⟨geo.bitmapStart, dataBitmapArea geo.total geo.ib⟩ := by rw [fs_eq]

@[simp] theorem dataAreaStart_eq : geo.fs.dataAreaStartBlock = geo.dataStart := by rw [fs_eq]

@[simp] theorem dataMaximum_eq : geo.fs.dataBitmap.maximum = geo.bits := Bitmap.maximum_eq _

@[simp] theorem inodeMaximum_eq : geo.fs.inodeBitmap.maximum = geo.ib * 4096 := Bitmap.maximum_eq _

theorem mem_inodeBitmap {id : Nat} : id ∈ geo.fs.inodeBitmap.ids ↔ 1 ≤ id ∧ id < 1 + geo.ib := by
  rw [inodeBitmap_eq, mem_ids]

theorem mem_dataBitmap {id : Nat} : id ∈ geo.fs.dataBitmap.ids ↔ geo.bitmapStart ≤ id ∧ id < geo.dataStart := by
  rw [dataBitmap_eq, mem_ids, dataStart]

/-- The areas follow each other, and there is a bit for every data block. -/
theorem areas : geo.bitmapStart = 1 + geo.ib + geo.ib * 1024 ∧ geo.bitmapStart ≤ geo.dataStart ∧
    geo.dataStart + geo.capacity = geo.total ∧ geo.capacity ≤ geo.bits := by
  have areas := geo.sized.areas
  rw [geo.inodeArea_eq] at areas
  have bitmap : dataBitmapArea geo.total geo.ib = (dataTotal geo.total geo.ib + 4096) / 4097 := rfl
  have rest : dataArea geo.total geo.ib = dataTotal geo.total geo.ib - dataBitmapArea geo.total geo.ib := rfl
  unfold dataStart capacity bits bitmapStart
  omega

theorem place_spec {n : Nat} (inside : n < geo.ib * 4096) : 1 + geo.ib ≤ (geo.place n).blockId ∧ (geo.place n).blockId < geo.bitmapStart ∧
    (geo.place n).blockOffset + 128 ≤ 512 := by
  have areas := geo.areas
  simp only [place]
  omega

theorem place_apart {n m x : Nat} (other : n ≠ m) (mine : (geo.place n).addr ≤ x ∧ x < (geo.place n).addr + 125) :
    x < (geo.place m).addr ∨ (geo.place m).addr + 125 ≤ x := by
  simp only [place, Inode.addr, blockAddr, blockSz] at mine ⊢
  omega

theorem place_block {n x : Nat} (mine : (geo.place n).addr ≤ x ∧ x < (geo.place n).addr + 125) : x / 512 = 1 + geo.ib + n / 4 := by
  simp only [place, Inode.addr, blockAddr, blockSz] at mine
  omega

end Geometry

/-! ### The blocks in use -/

/-- The bits of the data bitmap that are set are those of the blocks `used`. -/
structure Marks (geo : Geometry) (used : List Nat) (mem : Memory) : Prop where
  bit : ∀ n < geo.bits, geo.fs.dataBitmap.bit mem n = decide (n + geo.dataStart ∈ used)
  area : ∀ id ∈ used, geo.dataStart ≤ id ∧ id < geo.dataStart + geo.bits ∧ id < 2 ^ 32
  distinct : used.Nodup

section
variable {geo : Geometry} {used rest : List Nat} {mem mem' : Memory} {held : List Nat} {id : Nat}

theorem Marks.congr (marks : Marks geo used mem) (same : ∀ x, x / 512 ∈ geo.fs.dataBitmap.ids → mem' x = mem x) : Marks geo used mem' := by
  refine ⟨fun n inside => ?_, marks.area, marks.distinct⟩
  rw [Bitmap.bit_congr (by rwa [geo.dataMaximum_eq]) same, marks.bit n inside]

theorem Marks.perm {used' : List Nat} (marks : Marks geo used mem) (perm : used.Perm used') : Marks geo used' mem := by
  refine ⟨fun n inside => ?_, fun id member => marks.area id (perm.mem_iff.mpr member), perm.nodup_iff.mp marks.distinct⟩
  rw [marks.bit n inside]
  exact decide_eq_decide.mpr perm.mem_iff

theorem Marks.behind (marks : Marks geo used mem) (member : id ∈ used) : id ∉ geo.fs.dataBitmap.ids := by
  have area := marks.area id member
  rw [geo.mem_dataBitmap]
  omega

theorem capacity_le (all : ∀ id, geo.dataStart ≤ id → id < geo.total → id ∈ used) : geo.capacity ≤ used.length := by
  have areas := geo.areas
  have subset : List.range' geo.dataStart geo.capacity ⊆ used := by
    intro id member
    rw [List.mem_range'_1] at member
    exact all id member.1 (by omega)
  have length := (List.subperm_of_subset List.nodup_range' subset).length_le
  rwa [List.length_range'] at length

/-- `alloc_data` takes the first block that is not in use, unless the data area is full. -/
theorem allocData_spec (marks : Marks geo used mem) (free : ∀ id ∈ geo.fs.dataBitmap.ids, id ∉ held) (few : held.length < 15) :
    wp (geo.fs.allocData held) (fun id mem' => id ∉ used ∧ Marks geo (used ++ [id]) mem' ∧ Outside geo.fs.dataBitmap.ids mem mem' ∧
      (used.length < geo.capacity → id < geo.total)) (fun _ => geo.capacity ≤ used.length) mem := by
  have areas := geo.areas
  have small := geo.small
  unfold EasyFileSystem.allocData
  refine wp_bind.mpr (wp_mono (alloc_spec free few) ?_ fun _ impossible => impossible.elim)
  intro r mem' taken
  cases r with
  | none =>
    obtain ⟨_, full⟩ := taken
    apply capacity_le
    intro id above below
    have set := full (id - geo.dataStart) (by rw [geo.dataMaximum_eq]; omega)
    rw [marks.bit _ (by omega), decide_eq_true_iff] at set
    rwa [Nat.sub_add_cancel above] at set
  | some n =>
    obtain ⟨inside, clear, before, changes⟩ := taken
    rw [geo.dataMaximum_eq] at inside
    have fresh : n + geo.dataStart ∉ used := by
      rw [marks.bit n inside, decide_eq_false_iff_not] at clear
      exact clear
    -- all blocks below the one taken are in use
    have lower : ∀ id, geo.dataStart ≤ id → id < n + geo.dataStart → id ∈ used := by
      intro id above below
      have set := before (id - geo.dataStart) (by omega)
      rw [marks.bit _ (by omega), decide_eq_true_iff] at set
      rwa [Nat.sub_add_cancel above] at set
    have room : used.length < geo.capacity → n + geo.dataStart < geo.total := by
      intro less
      by_contra past
      have full := capacity_le fun id above below => lower id above (by omega)
      omega
    simp only [geo.dataAreaStart_eq]
    apply wp_add32_cases
    · intro fits
      by_cases whole : n < 2 ^ 32
      · rw [Nat.mod_eq_of_lt whole] at fits ⊢
        refine ⟨fresh, ⟨fun m bound => ?_, ?_, ?_⟩, changes.outside, room⟩
        · rw [changes.bit m]
          by_cases same : m = n
          · simp [same]
          · rw [if_neg same, marks.bit m bound]
            exact decide_eq_decide.mpr (by simp [same])
        · intro id member
          rcases List.mem_append.mp member with old | new
          · exact marks.area id old
          · rw [List.mem_singleton.mp new]
            omega
        · exact List.nodup_append.mpr ⟨marks.distinct, List.nodup_singleton _, fun id old _ new => by
            rintro rfl
            exact fresh (List.mem_singleton.mp new ▸ old)⟩
      · -- there are fewer than `2 ^ 32` bits
        have bitmap : dataBitmapArea geo.total geo.ib * 4096 ≤ dataTotal geo.total geo.ib + 4096 := by
          unfold dataBitmapArea
          omega
        have sized := geo.sized.bitmap
        have count : geo.bits = dataBitmapArea geo.total geo.ib * 4096 := rfl
        omega
    · intro leaves
      by_contra less
      have below := room (by omega)
      rw [Nat.mod_eq_of_lt (by omega)] at leaves
      omega

/-- As many new blocks as are asked for, inside the data area if it has room for them. -/
theorem allocBlocks_spec {count : Nat} (marks : Marks geo used mem) (free : ∀ id ∈ geo.fs.dataBitmap.ids, id ∉ held) (few : held.length < 15) :
    wp (Inode.allocBlocks geo.fs held count) (fun blocks mem' => blocks.length = count ∧ Marks geo (used ++ blocks) mem' ∧
      Outside geo.fs.dataBitmap.ids mem mem' ∧ (used.length + count ≤ geo.capacity → ∀ id ∈ blocks, id < geo.total))
      (fun _ => ¬used.length + count ≤ geo.capacity) mem := by
  induction count generalizing used mem with
  | zero => exact ⟨rfl, by rwa [List.append_nil], Outside.refl _ _, by simp⟩
  | succ count ih =>
    simp only [Inode.allocBlocks, wp_bind, wp_pure]
    refine wp_mono (allocData_spec marks free few) ?_ fun _ full => by omega
    rintro id mem₁ ⟨_, marks₁, outside, inside⟩
    refine wp_mono (ih marks₁) ?_ fun _ full => ?_
    · rintro blocks mem₂ ⟨length, marks₂, outside₂, inside₂⟩
      rw [List.append_assoc, List.singleton_append] at marks₂
      refine ⟨by rw [List.length_cons, length], marks₂, outside.trans outside₂, fun room => ?_⟩
      rw [List.length_append, List.length_singleton] at inside₂
      exact List.forall_mem_cons.mpr ⟨inside (by omega), inside₂ (by omega)⟩
    · rw [List.length_append, List.length_singleton] at full
      omega

/-- `dealloc_data` clears the block and its bit. -/
theorem deallocData_spec (marks : Marks geo (id :: used) mem) (free : ∀ id ∈ geo.fs.dataBitmap.ids, id ∉ held) (mine : id ∉ held)
    (few : held.length < 15) :
    wp (geo.fs.deallocData held id) (fun _ mem' => Marks geo used mem' ∧ (∀ x, x / 512 = id → mem' x = 0) ∧
      Outside (id :: geo.fs.dataBitmap.ids) mem mem') (fun _ => False) mem := by
  have area := marks.area id List.mem_cons_self
  have behind := marks.behind List.mem_cons_self
  have cleared := store_zeroBlock mem id
  have bound : id - geo.dataStart < geo.bits := by omega
  have marks₁ : Marks geo (id :: used) (mem.store (blockAddr id) zeroBlock) := by
    apply marks.congr
    intro x bitmap
    rw [cleared, if_neg]
    rintro rfl
    exact behind bitmap
  have set : geo.fs.dataBitmap.bit (mem.store (blockAddr id) zeroBlock) (id - geo.dataStart) = true := by
    rw [marks₁.bit _ bound, Nat.sub_add_cancel area.1]
    simp
  simp only [EasyFileSystem.deallocData, EasyFileSystem.clearBlock, wp_bind, wp_lockBlock mine few, wp_modify, geo.dataAreaStart_eq,
    wp_sub32 area.1]
  refine wp_mono (dealloc_spec (by rwa [geo.dataMaximum_eq]) set free few) ?_ fun _ impossible => impossible
  intro _ mem' changes
  obtain ⟨fresh, distinct⟩ := List.nodup_cons.mp marks.distinct
  refine ⟨⟨fun n inside => ?_, fun id member => marks.area id (List.mem_cons_of_mem _ member), distinct⟩, ?_, ?_⟩
  · rw [changes.bit n]
    by_cases same : n = id - geo.dataStart
    · rw [if_pos same, same, Nat.sub_add_cancel area.1]
      simp [fresh]
    · rw [if_neg same, marks₁.bit n inside]
      have other : n + geo.dataStart ≠ id := by omega
      exact decide_eq_decide.mpr (by simp [other])
  · intro x here
    rw [changes.outside x (by rw [here]; exact behind), cleared, if_pos here]
  · intro x out
    rw [List.mem_cons, not_or] at out
    rw [changes.outside x out.2, cleared, if_neg out.1]

theorem deallocBlocks_spec {blocks : List Nat} (marks : Marks geo (blocks ++ used) mem) (free : ∀ id ∈ geo.fs.dataBitmap.ids, id ∉ held)
    (mine : ∀ id ∈ blocks, id ∉ held) (few : held.length < 15) :
    wp (Inode.deallocBlocks geo.fs held blocks) (fun _ mem' => Marks geo used mem' ∧ (∀ x, x / 512 ∈ blocks → mem' x = 0) ∧
      Outside (blocks ++ geo.fs.dataBitmap.ids) mem mem') (fun _ => False) mem := by
  induction blocks generalizing mem with
  | nil => exact ⟨marks, by simp, Outside.refl _ _⟩
  | cons id blocks ih =>
    obtain ⟨first, others⟩ := List.forall_mem_cons.mp mine
    simp only [Inode.deallocBlocks, wp_bind]
    refine wp_mono (deallocData_spec marks free first few) ?_ fun _ impossible => impossible
    rintro _ mem₁ ⟨marks₁, zero, outside⟩
    refine wp_mono (ih marks₁ others) ?_ fun _ impossible => impossible
    rintro _ mem₂ ⟨marks₂, zero₂, outside₂⟩
    refine ⟨marks₂, fun x member => ?_, ?_⟩
    · rcases List.mem_cons.mp member with here | later
      · by_cases again : x / 512 ∈ blocks
        · exact zero₂ x again
        · rw [outside₂ x, zero x here]
          rw [List.mem_append, not_or, here]
          exact ⟨here ▸ again, marks.behind List.mem_cons_self⟩
      · exact zero₂ x later
    · refine Outside.trans (outside.mono ?_) (outside₂.mono ?_)
      · intro x member
        rcases List.mem_cons.mp member with rfl | bitmap
        · exact List.mem_cons_self
        · exact List.mem_append_right _ bitmap
      · exact fun x member => List.mem_cons_of_mem _ member

end

end SecureIpc.EasyFs
