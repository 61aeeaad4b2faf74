import SecureIpc.EasyFs.Format

/-! The areas of the disk, and the blocks that `alloc_data` hands out. -/

namespace SecureIpc.Guarantees
open Lib EasyFs

/-! ### The areas tile the disk -/

/-- Super block, inode bitmap, inode area, data bitmap and data area follow each other on a disk of `total` blocks;
inodes have slots of their own, data blocks have bits, and the disk opens as the file system it was made for. -/
structure Partition (total ib : Nat) (fs : EasyFileSystem) (mem : Memory) : Prop where
  inodeBitmap : fs.inodeBitmap = ⟨1, ib⟩
  inodeArea : fs.inodeAreaStartBlock = fs.inodeBitmap.startBlockId + fs.inodeBitmap.blocks
  dataBitmap : fs.dataBitmap.startBlockId = fs.inodeAreaStartBlock + (SuperBlock.load mem).inodeAreaBlocks
  dataArea : fs.dataAreaStartBlock = fs.dataBitmap.startBlockId + fs.dataBitmap.blocks
  whole : fs.dataAreaStartBlock + (SuperBlock.load mem).dataAreaBlocks = total
  slots : ∃ slot : Nat → Nat × Nat, (∀ n < fs.inodeBitmap.maximum, fs.getDiskInodePos n mem = .ok (slot n, mem) ∧
      fs.inodeAreaStartBlock ≤ (slot n).1 ∧ (slot n).1 < fs.dataBitmap.startBlockId ∧ (slot n).2 + diskInodeSize ≤ blockSz) ∧
    ∀ n < fs.inodeBitmap.maximum, ∀ m < fs.inodeBitmap.maximum, n < m →
      blockAddr (slot n).1 + (slot n).2 + diskInodeSize ≤ blockAddr (slot m).1 + (slot m).2
  bits : ∀ id, fs.dataAreaStartBlock ≤ id → id < total → id - fs.dataAreaStartBlock < fs.dataBitmap.maximum
  reopens : EasyFileSystem.open mem = .ok (fs, mem)

section
variable {total ib : Nat} {mem : Memory}

theorem inodeArea_eq (fits : total < 2 ^ 32) (enough : 1 + 1025 * ib + 1 < total) : inodeArea ib = ib * 1024 :=
  Nat.mod_eq_of_lt (by omega)

theorem sized_iff (fits : total < 2 ^ 32) (enough : 1 + 1025 * ib + 1 < total) :
    Sized total ib ↔ total - 1 - 1025 * ib + 4096 < 2 ^ 32 := by
  have area := inodeArea_eq fits enough
  have rest : dataTotal total ib = total - 1 - 1025 * ib := by
    unfold dataTotal
    omega
  rw [← rest]
  exact ⟨fun sized => sized.bitmap, fun bitmap => ⟨by omega, bitmap⟩⟩

/-- `open` goes by the super block alone. -/
theorem superBlock_open (fits : total < 2 ^ 32) (sized : Sized total ib) (header : SuperBlock.load mem = formattedSuper total ib) :
    EasyFileSystem.open mem = .ok (formatted total ib, mem) := by
  have areas := sized.areas
  have spec : wp EasyFileSystem.open (fun fs mem' => fs = formatted total ib ∧ mem' = mem) (fun _ => False) mem := by
    simp only [EasyFileSystem.open, wp_bind, wp_lockBlock (List.not_mem_nil) (by decide : [].length < 15), wp_read, header]
    rw [if_pos (show (formattedSuper total ib).isValid = true from rfl)]
    refine wp_mono (ofSizes_spec (by simp only [formattedSuper]; omega)) ?_ fun _ impossible => impossible
    rintro fs mem' ⟨same, made⟩
    exact ⟨made, same⟩
  obtain ⟨fs, mem', run, rfl, rfl⟩ := wp_returns spec
  exact run

theorem formatted_open (fits : total < 2 ^ 32) (disk : Formatted total ib mem) :
    EasyFileSystem.open mem = .ok (formatted total ib, mem) :=
  superBlock_open fits disk.sized disk.superBlock

theorem getDiskInodePos_run {fs : EasyFileSystem} {n : Nat} (small : n < 2 ^ 32) (fits : fs.inodeAreaStartBlock + n / 4 < 2 ^ 32) :
    fs.getDiskInodePos n mem = .ok ((fs.inodeAreaStartBlock + n / 4, n % 4 * 128), mem) := by
  have spec : wp (fs.getDiskInodePos n) (fun place mem' => place = (fs.inodeAreaStartBlock + n / 4, n % 4 * 128) ∧ mem' = mem)
      (fun _ => False) mem := (getDiskInodePos_spec small fits).mpr ⟨rfl, rfl⟩
  obtain ⟨place, mem', run, rfl, rfl⟩ := wp_returns spec
  exact run

theorem formatted_partition (fits : total < 2 ^ 32) (enough : 1 + 1025 * ib + 1 < total) (few : ib ≤ 2 ^ 20)
    (disk : Formatted total ib mem) :
    Partition total ib (formatted total ib) mem := by
  have areas := disk.sized.areas
  have size := inodeArea_eq fits enough
  have inodes : (formatted total ib).inodeBitmap.maximum = ib * 4096 := Bitmap.maximum_eq _
  have data : (formatted total ib).dataBitmap.maximum = dataBitmapArea total ib * 4096 := Bitmap.maximum_eq _
  have inodeStart : (formatted total ib).inodeAreaStartBlock = 1 + ib := rfl
  have bitmapStart : (formatted total ib).dataBitmap.startBlockId = 1 + (ib + inodeArea ib) := rfl
  have dataStart : (formatted total ib).dataAreaStartBlock = 1 + (ib + inodeArea ib) + dataBitmapArea total ib := rfl
  refine ⟨rfl, rfl, ?_, rfl, ?_, ?_, ?_, formatted_open fits disk⟩
  · rw [disk.superBlock, bitmapStart, inodeStart, ← Nat.add_assoc]
    rfl
  · rw [disk.superBlock]
    exact areas
  · refine ⟨fun n => (1 + ib + n / 4, n % 4 * 128), ?_, ?_⟩
    · intro n inside
      unfold diskInodeSize blockSz
      dsimp only
      exact ⟨getDiskInodePos_run (by omega) (by omega), by omega, by omega, by omega⟩
    · intro n _ m _ before
      unfold blockAddr diskInodeSize blockSz
      dsimp only
      omega
  · intro id above below
    have rounded : dataTotal total ib ≤ dataBitmapArea total ib * 4097 := by
      unfold dataBitmapArea
      omega
    have rest : dataArea total ib = dataTotal total ib - dataBitmapArea total ib := rfl
    omega

/-- The bit `2 ^ 32` of a larger inode bitmap would stand for the slot of the root. -/
theorem partition_few {fs : EasyFileSystem} (parts : Partition total ib fs mem) : ib ≤ 2 ^ 20 := by
  by_contra many
  have maximum : fs.inodeBitmap.maximum = ib * 4096 := by
    rw [parts.inodeBitmap]
    exact Bitmap.maximum_eq _
  obtain ⟨slot, placed, apart⟩ := parts.slots
  have root := (placed 0 (by omega)).1
  have last := (placed (2 ^ 32) (by omega)).1
  have wraps : fs.getDiskInodePos (2 ^ 32) = fs.getDiskInodePos 0 := by
    simp only [EasyFileSystem.getDiskInodePos, Nat.mod_self, Nat.zero_mod]
  rw [wraps, root] at last
  have same := (Prod.mk.inj (Except.ok.inj last)).1
  have order := apart 0 (by omega) (2 ^ 32) (by omega) (by decide)
  rw [← same] at order
  unfold diskInodeSize at order
  omega

end

/-- The areas tile the disk, on which each inode has its slot and each data block its bit, and the disk opens again,
exactly when there is an inode bitmap, the numbers of its bits are `u32`s and rounding up the size of the data bitmap
does not overflow. -/
theorem create_partitions_disk (total ib : Nat) (fits : total < 2 ^ 32) (enough : 1 + 1025 * ib + 1 < total) :
    (∀ mem, ∃ fs mem', EasyFileSystem.create total ib mem = .ok (fs, mem') ∧ Partition total ib fs mem') ↔
      0 < ib ∧ ib ≤ 2 ^ 20 ∧ total - 1 - 1025 * ib + 4096 < 2 ^ 32 := by
  rw [← sized_iff fits enough]
  constructor
  · intro creates
    obtain ⟨fs, mem', run, parts⟩ := creates fun _ => 0
    obtain ⟨_, disk⟩ := wp_ok (create_spec fits) run
    exact ⟨disk.inodes, partition_few parts, disk.sized⟩
  · rintro ⟨inodes, few, sized⟩ mem
    obtain ⟨mem', run, disk⟩ := create_returns fits sized inodes mem
    exact ⟨_, mem', run, formatted_partition fits enough few disk⟩

/-- The disk that the packing tool makes. -/
theorem create_partitions_disk_packed : ∃ fs mem', EasyFileSystem.create 32768 1 (fun _ => 0) = .ok (fs, mem') ∧
    Partition 32768 1 fs mem' :=
  (create_partitions_disk 32768 1 (by decide) (by decide)).mpr (by decide) fun _ => 0

/-- A disk of two terabytes: the size of its data bitmap does not fit. -/
theorem create_partitions_disk_overflow : 1 + 1025 * 1 + 1 < 2 ^ 32 - 1 ∧ ¬∀ mem, ∃ fs mem',
    EasyFileSystem.create (2 ^ 32 - 1) 1 mem = .ok (fs, mem') ∧ Partition (2 ^ 32 - 1) 1 fs mem' := by
  refine ⟨by decide, fun creates => ?_⟩
  obtain ⟨fs, mem', run, _⟩ := creates fun _ => 0
  obtain ⟨_, disk⟩ := wp_ok (create_spec (by decide)) run
  have bitmap := (sized_iff (by decide) (by decide)).mp disk.sized
  omega

/-! ### The blocks that are handed out -/

inductive DataCall where
  | alloc
  | dealloc (blockId : Nat)
  deriving DecidableEq, Repr

def dataCalls (fs : EasyFileSystem) : List DataCall → FsM (List Nat)
  | [] => return []
  | .alloc :: rest => do
    let id ← fs.allocData []
    return id :: (← dataCalls fs rest)
  | .dealloc blockId :: rest => do
    fs.deallocData [] blockId
    dataCalls fs rest

/-- Every block handed out lies in the data area, and none is when all of that area is in use. -/
def StaysInside (total : Nat) (fs : EasyFileSystem) (mem : Memory) : Prop :=
  ∀ calls ids mem', dataCalls fs calls mem = .ok (ids, mem') →
    (∀ id ∈ ids, fs.dataAreaStartBlock ≤ id ∧ id < total) ∧
    ((∀ id, fs.dataAreaStartBlock ≤ id → id < total → fs.dataBitmap.bit mem' (id - fs.dataAreaStartBlock) = true) →
      ∀ id mem'', fs.allocData [] mem' ≠ .ok (id, mem''))

section
variable {fs : EasyFileSystem} {mem : Memory} {total ib : Nat}

/-- A block that is handed out has a bit, and the bit was clear. -/
theorem allocData_bit (fs : EasyFileSystem) (mem : Memory) : wp (fs.allocData []) (fun id _ => ∃ n < fs.dataBitmap.maximum,
    fs.dataBitmap.bit mem n = false ∧ id = n % 2 ^ 32 + fs.dataAreaStartBlock) (fun _ => True) mem := by
  unfold EasyFileSystem.allocData
  refine wp_bind.mpr (wp_mono (alloc_spec (by simp) (by decide)) ?_ fun _ _ => trivial)
  intro bit mem' taken
  cases bit with
  | none => trivial
  | some n =>
    obtain ⟨inside, clear, _⟩ := taken
    exact wp_add32_cases (fun _ => ⟨n, inside, clear, rfl⟩) fun _ => trivial

theorem allocData_first {t : Nat} (inside : t < fs.dataBitmap.maximum) (clear : fs.dataBitmap.bit mem t = false)
    (fits : t + fs.dataAreaStartBlock < 2 ^ 32) : wp (fs.allocData []) (fun id mem' => ∃ n ≤ t, id = n + fs.dataAreaStartBlock ∧
      fs.dataBitmap.bit mem n = false ∧ (∀ m < n, fs.dataBitmap.bit mem m = true) ∧ fs.dataBitmap.Changes mem mem' n true) (fun _ => False) mem := by
  unfold EasyFileSystem.allocData
  refine wp_bind.mpr (wp_mono (alloc_spec (by simp) (by decide)) ?_ fun _ impossible => impossible)
  intro bit mem' taken
  cases bit with
  | none =>
    have set := taken.2 t inside
    rw [clear] at set
    cases set
  | some n =>
    obtain ⟨_, free, before, changes⟩ := taken
    have first : n ≤ t := by
      by_contra later
      have set := before t (by omega)
      rw [clear] at set
      cases set
    have small : n % 2 ^ 32 = n := Nat.mod_eq_of_lt (by omega)
    simp only [small]
    exact (wp_add32 (by omega)).mpr ⟨n, first, rfl, free, before, changes⟩

/-- Enough calls hand out the block of any clear bit. -/
theorem allocData_reaches {t : Nat} (inside : t < fs.dataBitmap.maximum) (fits : t + fs.dataAreaStartBlock < 2 ^ 32) (k : Nat)
    (below : k ≤ t) (set : ∀ m < k, fs.dataBitmap.bit mem m = true) (clear : fs.dataBitmap.bit mem t = false) :
    ∃ calls ids mem', dataCalls fs calls mem = .ok (ids, mem') ∧ t + fs.dataAreaStartBlock ∈ ids := by
  -- the bits below `k` are set; each call moves `k` up
  induction gap : t - k using Nat.strong_induction_on generalizing k mem with
  | _ gap ih =>
    obtain ⟨id, mem₁, run, n, first, rfl, free, before, changes⟩ := wp_returns (allocData_first inside clear fits)
    by_cases done : n = t
    · subst done
      refine ⟨[.alloc], [n + fs.dataAreaStartBlock], mem₁, ?_, List.mem_singleton_self _⟩
      rw [dataCalls, run_bind run]
      rfl
    · have above : k ≤ n := by
        by_contra low
        rw [set n (by omega)] at free
        cases free
      obtain ⟨calls, ids, mem', rest, member⟩ := ih (t - (n + 1)) (by omega) (n + 1) (by omega) (fun m low => by
        rw [changes.bit m]
        by_cases same : m = n
        · rw [if_pos same]
        · rw [if_neg same]
          exact before m (by omega)) (by rw [changes.bit t, if_neg (Ne.symm done)]; exact clear) rfl
      refine ⟨.alloc :: calls, (n + fs.dataAreaStartBlock) :: ids, mem', ?_, List.mem_cons_of_mem _ member⟩
      rw [dataCalls, run_bind run, run_bind rest]
      rfl

theorem dataCalls_bits (calls : List DataCall) : wp (dataCalls fs calls) (fun ids _ => ∀ id ∈ ids, ∃ n < fs.dataBitmap.maximum,
    id = n % 2 ^ 32 + fs.dataAreaStartBlock) (fun _ => True) mem := by
  induction calls generalizing mem with
  | nil => simp [dataCalls]
  | cons call rest ih =>
    cases call with
    | alloc =>
      simp only [dataCalls, wp_bind, wp_pure]
      refine wp_mono (allocData_bit fs mem) ?_ fun _ _ => trivial
      rintro id mem₁ ⟨n, inside, _, place⟩
      refine wp_mono ih ?_ fun _ _ => trivial
      intro ids _ later
      exact List.forall_mem_cons.mpr ⟨⟨n, inside, place⟩, later⟩
    | dealloc blockId =>
      simp only [dataCalls, wp_bind]
      exact wp_intro (fun _ _ _ => ih) fun _ _ => trivial

end

/-- The blocks handed out stay inside the data area exactly when the blocks after the inode area are groups of one bitmap
block with its 4096 data blocks. -/
theorem allocData_stays_inside (total ib : Nat) (fits : total < 2 ^ 32) (fs : EasyFileSystem) (mem mem' : Memory)
    (created : EasyFileSystem.create total ib mem = .ok (fs, mem')) :
    StaysInside total fs mem' ↔ (total - 1 - (ib + ib * 1024 % 2 ^ 32)) % 4097 = 0 := by
  obtain ⟨rfl, disk⟩ := wp_ok (create_spec fits) created
  have areas := disk.sized.areas
  have data : (formatted total ib).dataBitmap.maximum = dataBitmapArea total ib * 4096 := Bitmap.maximum_eq _
  have start : (formatted total ib).dataAreaStartBlock = 1 + (ib + inodeArea ib) + dataBitmapArea total ib := rfl
  have rest : dataArea total ib = dataTotal total ib - dataBitmapArea total ib := rfl
  have bitmap : dataBitmapArea total ib = (dataTotal total ib + 4096) / 4097 := rfl
  change _ ↔ dataTotal total ib % 4097 = 0
  constructor
  · intro inside
    by_contra uneven
    obtain ⟨t, above, bound, room, clear⟩ := disk.spare fits uneven
    obtain ⟨calls, ids, mem'', run, member⟩ := allocData_reaches bound room 0 (Nat.zero_le _) nofun clear
    have limits := (inside calls ids mem'' run).1 _ member
    omega
  · intro even calls ids mem'' run
    constructor
    · intro id member
      obtain ⟨n, bound, rfl⟩ := wp_ok (dataCalls_bits calls) run id member
      omega
    · intro full id last taken
      obtain ⟨n, bound, clear, _⟩ := wp_ok (allocData_bit _ mem'') taken
      have set := full (n + (formatted total ib).dataAreaStartBlock) (by omega) (by omega)
      rw [Nat.add_sub_cancel, clear] at set
      cases set

theorem allocData_stays_inside_group : ∃ fs mem', EasyFileSystem.create 5123 1 (fun _ => 0) = .ok (fs, mem') ∧
    StaysInside 5123 fs mem' := by
  have sized : Sized 5123 1 := (sized_iff (by omega) (by omega)).mpr (by omega)
  obtain ⟨mem', run, _⟩ := create_returns (by omega) sized (by omega) fun _ => 0
  exact ⟨_, mem', run, (allocData_stays_inside 5123 1 (by omega) _ _ mem' run).mpr (by omega)⟩

/-- A disk with one data block: the second call hands out a block behind the disk. -/
theorem allocData_stays_inside_spare : ∃ fs mem', EasyFileSystem.create 1028 1 (fun _ => 0) = .ok (fs, mem') ∧
    ¬StaysInside 1028 fs mem' := by
  have sized : Sized 1028 1 := (sized_iff (by omega) (by omega)).mpr (by omega)
  obtain ⟨mem', run, disk⟩ := create_returns (by omega) sized (by omega) fun _ => 0
  refine ⟨_, mem', run, fun inside => ?_⟩
  have clear := disk.dataBit (by decide : 1 < _) (Or.inl (by decide))
  obtain ⟨calls, ids, mem'', taken, member⟩ := allocData_reaches (by decide : 1 < _) (by decide) 0 (Nat.zero_le _) nofun clear
  have limits := (inside calls ids mem'' taken).1 _ member
  revert limits
  decide

end SecureIpc.Guarantees
