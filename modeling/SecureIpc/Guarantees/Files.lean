import SecureIpc.EasyFs.FileMap
import SecureIpc.Lib.Refinement

/-! The file system refines a map from names to byte strings. -/

namespace SecureIpc.Guarantees
open Lib EasyFs

/-- Calls on the root directory and on files that `create` or `find` have returned. -/
inductive FileOp where
  | create (name : Utf8)
  | find (name : Utf8)
  | ls
  | readAt (file : Inode) (offset len : Nat)
  | writeAt (file : Inode) (offset : Nat) (buf : List UInt8)
  | clear (file : Inode)
  deriving DecidableEq, Repr

inductive FileReply where
  | file (inode : Option Inode)
  | names (list : List Utf8)
  | bytes (buf : List UInt8)
  | count (written : Nat)
  | done
  deriving DecidableEq, Repr

def FileOp.exec (fs : EasyFileSystem) (root : Inode) : FileOp → FsM FileReply
  | .create name => return .file (← root.create fs name)
  | .find name => return .file (← root.find fs name)
  | .ls => return .names (← root.ls)
  | .readAt file offset len => return .bytes (← file.readAt offset len)
  | .writeAt file offset buf => return .count (← file.writeAt fs offset buf)
  | .clear file => do
    file.clear fs
    return .done

def position (geo : Geometry) (map : FileMap) (file : Inode) : Option Nat := (List.range map.length).find? fun i => geo.place (i + 1) == file

def changed (map : FileMap) (i : Nat) (f : List UInt8 → List UInt8) : FileMap := map.modify i fun file => (file.1, f file.2)

def fileStep (geo : Geometry) (map : FileMap) : FileOp → FileReply × FileMap
  | .create name =>
    if name ∈ map.names then (.file none, map) else (.file (some (geo.place (map.length + 1))), map ++ [(name, [])])
  | .find name => (.file ((map.index name).map fun i => geo.place (i + 1)), map)
  | .ls => (.names map.names, map)
  | .readAt file offset len => (.bytes (((position geo map file).bind fun i => map[i]?).elim [] fun file => slice file.2 offset len), map)
  | .writeAt file offset buf => (.count buf.length, (position geo map file).elim map fun i => changed map i fun bytes => overwrite bytes offset buf)
  | .clear file => (.done, (position geo map file).elim map fun i => changed map i fun _ => [])

/-- The disk has an inode and the blocks that the map needs after the call, and no file is longer than its index can be. -/
def fileAllowed (geo : Geometry) (map : FileMap) (op : FileOp) : Prop :=
  FileMap.usage (fileStep geo map op).2 ≤ geo.capacity ∧
  match op with
  | .create name => ValidName name ∧ 0 < name.length ∧
    (name ∉ map.names → map.length + 1 < geo.ib * 4096 ∧ 32 * (map.length + 1) ≤ (28 + 128 + 128 * 128) * 512)
  | .find _ => True
  | .ls => True
  | .readAt file offset len => (position geo map file).isSome = true ∧ offset + len < 2 ^ 64
  | .writeAt file offset buf => (position geo map file).isSome = true ∧ buf ≠ [] ∧ offset + buf.length ≤ (28 + 128 + 128 * 128) * 512
  | .clear file => (position geo map file).isSome = true

def fileSpec (geo : Geometry) : Spec FileOp FileReply FileMap where
  allowed := fileAllowed geo
  step := fileStep geo

section
variable {geo : Geometry} {map : FileMap} {mem : Memory} {file : Inode} {i : Nat}

theorem position_spec (found : position geo map file = some i) : file = geo.place (i + 1) ∧ i < map.length := by
  have same := List.find?_some found
  have member := List.mem_of_find?_eq_some found
  exact ⟨(beq_iff_eq.mp same).symm, List.mem_range.mp member⟩

theorem changed_eq {contents : Utf8 × List UInt8} {f : List UInt8 → List UInt8} (found : map[i]? = some contents) :
    changed map i f = map.set i (contents.1, f contents.2) := by
  rw [changed, List.modify_eq_set_getElem?, found]
  rfl

theorem position_some (present : (position geo map file).isSome = true) :
    ∃ i contents, position geo map file = some i ∧ file = geo.place (i + 1) ∧ map[i]? = some contents := by
  obtain ⟨i, found⟩ := Option.isSome_iff_exists.mp present
  obtain ⟨place, inside⟩ := position_spec found
  exact ⟨i, map[i], found, place, List.getElem?_eq_getElem inside⟩

/-- Each call does what the map does. -/
theorem fileOp_refines (geo : Geometry) : Refines (FileOp.exec geo.fs (geo.place 0)) (fileSpec geo) fun mem map => Holds geo map mem := by
  intro mem map op holds allowed
  obtain ⟨room, allowed⟩ := allowed
  cases op with
  | create name =>
    obtain ⟨valid, _, space⟩ := allowed
    simp only [fileSpec, fileStep] at room ⊢
    by_cases present : name ∈ map.names
    · rw [if_pos present] at room ⊢
      obtain ⟨mem', run, after⟩ := holds.create_old present
      exact ⟨mem', by rw [FileOp.exec, run_bind run]; rfl, after⟩
    · rw [if_neg present] at room ⊢
      obtain ⟨mem', run, after⟩ := holds.create_new present valid (space present).1 (space present).2 room
      exact ⟨mem', by rw [FileOp.exec, run_bind run]; rfl, after⟩
  | find name => exact ⟨mem, by rw [FileOp.exec, run_bind holds.find]; rfl, holds⟩
  | ls => exact ⟨mem, by rw [FileOp.exec, run_bind holds.ls]; rfl, holds⟩
  | readAt file offset len =>
    obtain ⟨present, fits⟩ := allowed
    obtain ⟨i, contents, found, rfl, here⟩ := position_some present
    refine ⟨mem, ?_, holds⟩
    rw [FileOp.exec, run_bind (holds.readAt here fits)]
    simp only [fileSpec, fileStep, found, Option.bind_some, here]
    rfl
  | writeAt file offset buf =>
    obtain ⟨present, some, limit⟩ := allowed
    obtain ⟨i, contents, found, rfl, here⟩ := position_some present
    simp only [fileSpec, fileStep, found, Option.elim_some, changed_eq here] at room ⊢
    obtain ⟨mem', run, after⟩ := holds.writeAt here some limit room
    exact ⟨mem', by rw [FileOp.exec, run_bind run]; rfl, after⟩
  | clear file =>
    obtain ⟨i, contents, found, rfl, here⟩ := position_some allowed
    simp only [fileSpec, fileStep, found, Option.elim_some, changed_eq here]
    obtain ⟨mem', run, after⟩ := holds.clear here
    exact ⟨mem', by rw [FileOp.exec, run_bind run]; rfl, after⟩

end

/-! ### Inode areas that have wrapped -/

section
variable {total ib : Nat} {mem : Memory} {name : Utf8}

theorem newDirectory_scan {held : List Nat} : Inode.findInodeId held name (.initialized .directory) = pure none := rfl

/-- The bitmap cannot be searched while its first block is locked. -/
theorem allocData_locked {fs : EasyFileSystem} {blockId : Nat} (start : fs.dataBitmap.startBlockId = blockId) (some : 0 < fs.dataBitmap.blocks) :
    wp (fs.allocData [blockId]) (fun _ _ => False) (fun fault => fault = .deadlock) mem := by
  obtain ⟨more, blocks⟩ := Nat.exists_eq_succ_of_ne_zero (Nat.pos_iff_ne_zero.mp some)
  have locked : 0 + blockId ∈ [blockId] := by simp
  simp only [EasyFileSystem.allocData, Bitmap.alloc, blocks, Bitmap.allocFrom, Bitmap.allocIn, start, lockBlock, if_pos locked, wp_bind, wp_throw]

/-- A directory that has to grow while the first block of the bitmap is locked. -/
theorem increaseSize_locked {fs : EasyFileSystem} {blockId : Nat} (start : fs.dataBitmap.startBlockId = blockId) (some : 0 < fs.dataBitmap.blocks) :
    wp (Inode.increaseSize fs [blockId] 32 (.initialized .directory)) (fun _ _ => False) (fun fault => fault = .deadlock) mem := by
  have empty : (DiskInode.initialized .directory).size = 0 := rfl
  have one : totalOf (blocksOf 32) - totalOf (blocksOf (DiskInode.initialized .directory).size) = 1 := rfl
  rw [Inode.increaseSize, empty, if_neg (by decide), wp_bind, BlockTree.blocksNumNeeded_spec (by decide) (by decide), one, wp_bind, Inode.allocBlocks,
    wp_bind]
  exact wp_mono (allocData_locked start some) (fun _ _ impossible => impossible.elim) fun _ stopped => stopped

/-- Where the size of the inode area has wrapped to zero, the root inode lies in the first block of the data bitmap. The first
`create` has that block locked when it asks for a data block. -/
theorem wrapped_create (disk : Formatted total ib mem) (wrapped : inodeArea ib = 0) (bitmap : 0 < dataBitmapArea total ib)
    (small : 1 + ib < 2 ^ 32) : Inode.create (formatted total ib) ⟨1 + ib, 0⟩ name mem = .error .deadlock := by
  have inodes := disk.inodes
  have fits := DiskInode.initialized_fits .directory
  have start : (formatted total ib).dataBitmap.startBlockId = 1 + ib := by simp [formatted, wrapped]
  have addr : (⟨1 + ib, 0⟩ : Inode).addr = blockAddr (1 + ib) := by simp [Inode.addr]
  have place : (0 : Nat) + diskInodeSize ≤ blockSz := by decide
  have place' : 128 + diskInodeSize ≤ blockSz := by decide
  have none : ([] : List Nat).length < 15 := by decide
  have maximum : (formatted total ib).inodeBitmap.maximum = ib * 4096 := Bitmap.maximum_eq _
  -- the inode bitmap lies before the inodes
  have apart : ∀ x, x / 512 ∈ (formatted total ib).inodeBitmap.ids → x < blockAddr (1 + ib) := by
    intro x member
    have bounds := mem_ids.mp member
    simp only [formatted] at bounds
    unfold blockAddr blockSz
    omega
  have spec : wp (Inode.create (formatted total ib) ⟨1 + ib, 0⟩ name) (fun _ _ => False) (fun fault => fault = .deadlock) mem := by
    simp only [Inode.create, Inode.modifyDiskInode, Inode.checkPlace, if_pos place, wp_bind, wp_lockBlock List.not_mem_nil none, wp_pure, wp_read,
      wp_modify, addr, disk.root, newDirectory_scan]
    rw [if_pos (show (DiskInode.initialized .directory).isDir = true from rfl)]
    simp only [wp_bind, wp_pure]
    have bits : ∀ n < ib * 4096, (formatted total ib).inodeBitmap.bit ((DiskInode.initialized .directory).store mem (blockAddr (1 + ib))) n =
        decide (n < 1) := by
      intro n inside
      simp only [Nat.lt_one_iff, ← disk.inodeBit n inside]
      exact Bitmap.bit_congr (by rwa [maximum]) fun x member => DiskInode.store_outside fits (Or.inl (apart x member))
    simp only [EasyFileSystem.allocInode, wp_bind]
    refine wp_mono (alloc_next (fun m inside => bits m (maximum ▸ inside)) (by simp) none) ?_ fun _ impossible => impossible.elim
    rw [maximum]
    rintro _ mem₁ (⟨rfl, full⟩ | ⟨rfl, inside, changes⟩)
    · omega
    · have offset : (1 % 2 ^ 32) / 4 = 0 ∧ (1 % 2 ^ 32) % 4 * 128 = 128 := by decide
      have areaStart : (formatted total ib).inodeAreaStartBlock = 1 + ib := rfl
      simp only [wp_pure, Inode.ofId, wp_bind]
      rw [getDiskInodePos_spec (by decide) (by rw [areaStart, offset.1]; exact small)]
      simp only [offset, areaStart, Nat.add_zero, EasyFileSystem.storeInode, if_pos place', wp_bind, wp_lockBlock List.not_mem_nil none, wp_modify, wp_read]
      have root : DiskInode.load ((DiskInode.initialized .file).store mem₁ (blockAddr (1 + ib) + 128)) (blockAddr (1 + ib)) = .initialized .directory := by
        rw [← @DiskInode.load_store mem (blockAddr (1 + ib)) (.initialized .directory) fits]
        apply DiskInode.load_congr
        intro i low
        rw [DiskInode.store_outside (DiskInode.initialized_fits .file) (Or.inl (by omega)), changes.outside]
        intro member
        have early := apart _ member
        omega
      have size : ((DiskInode.initialized .directory).size / direntSz + 1) * direntSz % 2 ^ 32 = 32 := rfl
      rw [root, size]
      exact wp_mono (increaseSize_locked start bitmap) (fun _ _ impossible => impossible.elim) fun _ stopped => stopped
  cases run : Inode.create (formatted total ib) ⟨1 + ib, 0⟩ name mem with
  | ok result => exact (wp_ok spec run).elim
  | error fault => rw [wp_error spec run]

end


/-! ### Whole sequences -/

/-- On a new disk whose inode area holds all its inodes, every sequence of calls that the disk has room for returns what the
same sequence returns on the map from names to byte strings, and leaves the files of the map on the disk. -/
theorem files_refine_map (geo : Geometry) (disk : Memory) (ops : List FileOp) (allows : (fileSpec geo).Allows [] ops) :
    ∃ mem mem', EasyFileSystem.create geo.total geo.ib disk = .ok (geo.fs, mem) ∧ Inode.root geo.fs mem = .ok (geo.place 0, mem) ∧
      execAll (FileOp.exec geo.fs (geo.place 0)) ops mem = .ok (((fileSpec geo).run [] ops).1, mem') ∧
      Holds geo ((fileSpec geo).run [] ops).2 mem' := by
  obtain ⟨mem, created, formatted⟩ := create_returns geo.small geo.sized geo.inodes disk
  have root : wp (Inode.root geo.fs) (fun inode mem' => inode = geo.place 0 ∧ mem' = mem) (fun _ => False) mem :=
    (Directory.ofId (by decide)).mpr ⟨rfl, rfl⟩
  obtain ⟨inode, mem₁, opened, rfl, rfl⟩ := wp_returns root
  obtain ⟨mem', run, after⟩ := (fileOp_refines geo).run (Holds.formatted formatted) allows
  exact ⟨mem₁, mem', created, opened, run, after⟩

def packedDisk : Geometry where
  total := 32768
  ib := 1
  small := by decide
  sized := ⟨by decide, by decide⟩
  inodes := by decide
  whole := by decide

/-- A file that is written behind its end has a gap of zeros. -/
theorem files_refine_map_gap : ∃ mem mem', EasyFileSystem.create 32768 1 (fun _ => 0) = .ok (packedDisk.fs, mem) ∧
    execAll (FileOp.exec packedDisk.fs (packedDisk.place 0)) [.create [0x61], .writeAt ⟨2, 128⟩ 2 [7], .readAt ⟨2, 128⟩ 0 9] mem =
      .ok ([.file (some ⟨2, 128⟩), .count 1, .bytes [0, 0, 7]], mem') := by
  have valid : ValidName [0x61] := by decide
  obtain ⟨mem, mem', created, _, run, _⟩ := files_refine_map packedDisk (fun _ => 0)
    [.create [0x61], .writeAt ⟨2, 128⟩ 2 [7], .readAt ⟨2, 128⟩ 0 9]
    ⟨⟨by decide, valid, by decide, fun _ => by decide⟩, ⟨by decide, by decide, by decide, by decide⟩, ⟨by decide, by decide, by decide⟩, trivial⟩
  exact ⟨mem, mem', created, run⟩

/-- A disk for 17 billion inodes, with one data block: no file can be created on it. -/
theorem files_refine_map_wrapped : ∃ fs mem, EasyFileSystem.create 4194307 4194304 (fun _ => 0) = .ok (fs, mem) ∧
    (SuperBlock.load mem).dataAreaBlocks = 1 ∧ Inode.root fs mem = .ok (⟨4194305, 0⟩, mem) ∧
    Inode.create fs ⟨4194305, 0⟩ [0x61] mem = .error .deadlock := by
  have sized : Sized 4194307 4194304 := ⟨by decide, by decide⟩
  obtain ⟨mem, run, disk⟩ := create_returns (by decide) sized (by decide) fun _ => 0
  have root : wp (Inode.root (formatted 4194307 4194304)) (fun inode mem' => inode = ⟨4194305, 0⟩ ∧ mem' = mem) (fun _ => False) mem := by
    rw [Inode.root, Inode.ofId, wp_bind, getDiskInodePos_spec (by decide) (by decide)]
    exact ⟨rfl, rfl⟩
  obtain ⟨inode, _, opened, rfl, rfl⟩ := wp_returns root
  refine ⟨_, _, run, ?_, opened, wrapped_create disk (by decide) (by decide) (by decide)⟩
  rw [disk.superBlock]
  decide

end SecureIpc.Guarantees
