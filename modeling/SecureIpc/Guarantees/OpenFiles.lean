import SecureIpc.Guarantees.Areas
import SecureIpc.Guarantees.Segments

/-! What the kernel gets from a disk that holds files: the disk mounts, `open_file` opens, and `read_all` reads all. -/

namespace SecureIpc.Guarantees
open Lib EasyFs

section
variable {geo : Geometry} {base : Platform} {start disk : Memory} {k : Kernel (onEasyFs geo base start)} {map : FileMap}
  {file : Utf8 × List UInt8} {name : Utf8} {nodes : List Node} {i offset fuel : Nat} {v : List UInt8}

/-! ### Mounting -/

theorem volume_open (volume : Volume geo nodes disk) : EasyFileSystem.open disk = .ok (geo.fs, disk) :=
  superBlock_open geo.small geo.sized volume.superBlock

/-! ### Opening -/

theorem index_found (position : map.index name = some i) : ∃ file, map[i]? = some file ∧ file.1 = name := by
  obtain ⟨inside, here, _⟩ := List.findIdx?_eq_some_iff_getElem.mp position
  have bound : i < map.length := by simpa [FileMap.names] using inside
  refine ⟨map[i], List.getElem?_eq_getElem bound, ?_⟩
  simpa [FileMap.names] using here

theorem wp_find {Q : Option Inode → Kernel (onEasyFs geo base start) → Prop} {E : Halt → Prop} (holds : Holds geo map k.disk) :
    wp (onDisk ((onEasyFs geo base start).fs.find name)) Q E k ↔ Q ((map.index name).map fun i => geo.place (i + 1)) k :=
  wp_onDisk (congrArg Except.toOption holds.find)

theorem wp_clearInode {P : Platform} {k : Kernel P} {inode : P.fs.Inode} {disk : P.fs.State} {Q : Unit → Kernel P → Prop} {E : Halt → Prop}
    (run : P.fs.clear inode k.disk = some disk) : wp (clearInode inode) Q E k ↔ Q () { k with disk } := by
  unfold clearInode
  exact wp_onDisk (by rw [run]; rfl)

theorem clear_run (holds : Holds geo map k.disk) (found : map[i]? = some file) : ∃ disk : Memory,
    (onEasyFs geo base start).fs.clear (geo.place (i + 1)) k.disk = some disk ∧ Holds geo (changed map i fun _ => []) disk := by
  obtain ⟨disk, run, after⟩ := holds.clear found
  refine ⟨disk, congrArg (fun result => (Except.toOption result).map Prod.snd) run, ?_⟩
  rwa [changed_eq found]

theorem openFile_reads (holds : Holds geo map k.disk) (position : map.index name = some i) :
    openFile name 0 k = .ok (some (geo.place (i + 1)), k) := by
  have spec : wp (openFile name 0) (fun inode k' => inode = some (geo.place (i + 1)) ∧ k' = k) (fun _ => False) k := by
    unfold openFile
    rw [if_neg (by decide)]
    refine wp_bind.mpr ((wp_find holds).mpr ?_)
    rw [position, Option.map_some]
    exact ⟨rfl, rfl⟩
  obtain ⟨inode, k', run, rfl, rfl⟩ := wp_returns spec
  exact run

/-! ### Reading all of a file -/

/-- The loop appends what follows the offset, and stops at a read that returns nothing. -/
theorem readAll_spec {P : Platform} {k : Kernel P} {inode : P.fs.Inode} {bytes : List UInt8}
    (reads : ∀ offset ≤ bytes.length, P.fs.readAt inode offset 512 k.disk = some (slice bytes offset 512, k.disk))
    (inside : offset ≤ bytes.length) (enough : (bytes.length - offset + 511) / 512 < fuel) :
    wp (readAll inode fuel offset v) (fun all k' => all = v ++ bytes.drop offset ∧ k' = k) (fun _ => False) k := by
  induction fuel generalizing offset v with
  | zero => exact absurd enough (Nat.not_lt_zero _)
  | succ fuel ih =>
    have length := @slice_length bytes offset 512
    rw [readAll, wp_bind, wp_onDisk (reads offset inside)]
    simp only [wp_ite, wp_pure]
    rw [List.take_of_length_le (show (slice bytes offset 512).length ≤ 512 by omega)]
    by_cases empty : (slice bytes offset 512).length = 0
    · rw [if_pos empty, List.drop_of_length_le (show bytes.length ≤ offset by omega), List.append_nil]
      exact ⟨rfl, trivial⟩
    · rw [if_neg empty]
      refine wp_mono (@ih (offset + (slice bytes offset 512).length) (v ++ slice bytes offset 512) (by omega) (by omega)) ?_
        fun _ impossible => impossible
      rintro all k' ⟨rfl, rfl⟩
      have rest : slice bytes offset 512 ++ bytes.drop (offset + (slice bytes offset 512).length) = bytes.drop offset := by
        have more := (@slice_split offset bytes 512 bytes.length).1
        have whole : ∀ n, slice bytes n (512 + bytes.length) = bytes.drop n := fun n =>
          List.take_of_length_le (by rw [List.length_drop]; omega)
        have whole' : ∀ n, slice bytes n bytes.length = bytes.drop n := fun n => List.take_of_length_le (by rw [List.length_drop]; omega)
        rw [whole, whole'] at more
        exact more.symm
      rw [List.append_assoc, rest]
      exact ⟨rfl, rfl⟩

theorem readAll_reads (holds : Holds geo map k.disk) (found : map[i]? = some file) :
    @readAll (onEasyFs geo base start) (geo.place (i + 1)) readAllBound 0 [] k = .ok (file.2, k) := by
  have bound := file_bound holds found
  unfold maxBlocks at bound
  have reads : ∀ offset ≤ file.2.length, (onEasyFs geo base start).fs.readAt (geo.place (i + 1)) offset 512 k.disk =
      some (slice file.2 offset 512, k.disk) := fun offset inside =>
    congrArg Except.toOption (holds.readAt found (show offset + 512 < 2 ^ 64 by omega))
  have enough : (file.2.length - 0 + 511) / 512 < readAllBound := by
    unfold readAllBound
    omega
  obtain ⟨all, k', run, rfl, rfl⟩ := wp_returns (readAll_spec (v := []) reads (Nat.zero_le _) enough)
  exact run

end

def opened (geo : Geometry) (map : FileMap) (name : Utf8) (flags : BitVec 32) : Option Inode × FileMap :=
  match map.index name with
  | some i =>
    (some (geo.place (i + 1)),
      if OpenFlags.contains flags OpenFlags.CREATE ∨ OpenFlags.contains flags OpenFlags.TRUNC then changed map i fun _ => [] else map)
  | none =>
    if OpenFlags.contains flags OpenFlags.CREATE then (some (geo.place (map.length + 1)), map ++ [(name, [])]) else (none, map)

def RoomFor (geo : Geometry) (map : FileMap) (name : Utf8) : Prop :=
  ValidName name ∧ map.length + 1 < geo.ib * 4096 ∧ 32 * (map.length + 1) ≤ maxBlocks * 512 ∧ FileMap.usage (map ++ [(name, [])]) ≤ geo.capacity

/-- `open_file` finds the file of the name; both `CREATE` and `TRUNC` empty it, and only `CREATE` makes one. -/
theorem openFile_opens (geo : Geometry) (base : Platform) (start : Memory) (k : Kernel (onEasyFs geo base start)) (map : FileMap) (name : Utf8)
    (flags : BitVec 32) (holds : Holds geo map k.disk)
    (room : OpenFlags.contains flags OpenFlags.CREATE = true → name ∉ map.names → RoomFor geo map name) :
    ∃ disk : Memory, openFile name flags k = .ok ((opened geo map name flags).1, { k with disk := disk }) ∧
      Holds geo (opened geo map name flags).2 disk := by
  have spec : wp (openFile name flags) (fun result k' => result = (opened geo map name flags).1 ∧
      ∃ disk : Memory, Holds geo (opened geo map name flags).2 disk ∧ k' = { k with disk := disk }) (fun _ => False) k := by
    unfold openFile opened
    by_cases create : OpenFlags.contains flags OpenFlags.CREATE = true
    · rw [if_pos create]
      refine wp_bind.mpr ((wp_find holds).mpr ?_)
      cases position : map.index name with
      | some i =>
        obtain ⟨file, found, _⟩ := index_found position
        obtain ⟨disk, run, after⟩ := clear_run holds found
        simp only [Option.map_some, create, true_or, if_true]
        exact wp_bind.mpr ((wp_clearInode run).mpr ⟨rfl, disk, after, rfl⟩)
      | none =>
        have new := FileMap.index_none.mp position
        obtain ⟨valid, inodes, limit, blocks⟩ := room create new
        obtain ⟨disk, run, after⟩ := holds.create_new new valid inodes limit blocks
        simp only [Option.map_none, create, if_true]
        exact (wp_onDisk (congrArg Except.toOption run)).mpr ⟨rfl, disk, after, rfl⟩
    · rw [if_neg create]
      refine wp_bind.mpr ((wp_find holds).mpr ?_)
      cases position : map.index name with
      | none =>
        simp only [Option.map_none, wp_pure, create]
        exact ⟨rfl, k.disk, holds, rfl⟩
      | some i =>
        obtain ⟨file, found, _⟩ := index_found position
        by_cases trunc : OpenFlags.contains flags OpenFlags.TRUNC = true
        · obtain ⟨disk, run, after⟩ := clear_run holds found
          simp only [Option.map_some, trunc, or_true, if_true]
          exact wp_bind.mpr ((wp_clearInode run).mpr ⟨rfl, disk, after, rfl⟩)
        · simp only [Option.map_some, create, trunc]
          exact ⟨rfl, k.disk, holds, rfl⟩
  obtain ⟨result, k', run, rfl, disk, after, rfl⟩ := wp_returns spec
  exact ⟨disk, run, after⟩

/-- A second file is made. -/
theorem openFile_opens_second : ∃ disk disk' : Memory, Holds packedDisk [([0x61], [])] disk ∧
    openFile [0x62] OpenFlags.CREATE (openKernel disk 0) = .ok (some (packedDisk.place 2), { openKernel disk 0 with disk := disk' }) ∧
    Holds packedDisk [([0x61], []), ([0x62], [])] disk' := by
  obtain ⟨disk, holds⟩ := exists_emptyFile
  obtain ⟨disk', run, after⟩ := openFile_opens packedDisk sample disk (openKernel disk 0) [([0x61], [])] [0x62] OpenFlags.CREATE holds
    fun _ _ => ⟨by decide, by decide, by decide, by decide⟩
  exact ⟨disk, disk', holds, run, after⟩

/-- Whatever calls have done to the files, the disk mounts as the file system that was made on it. -/
theorem files_remount (geo : Geometry) (disk : Memory) (ops : List FileOp) (allows : (fileSpec geo).Allows [] ops) :
    ∃ mem mem' replies, EasyFileSystem.create geo.total geo.ib disk = .ok (geo.fs, mem) ∧
      execAll (FileOp.exec geo.fs (geo.place 0)) ops mem = .ok (replies, mem') ∧ EasyFileSystem.open mem' = .ok (geo.fs, mem') ∧
      (geo.place 0).ls mem' = .ok (FileMap.names ((fileSpec geo).run [] ops).2, mem') := by
  obtain ⟨mem, created, new⟩ := create_returns geo.small geo.sized geo.inodes disk
  obtain ⟨mem', run, after⟩ := (fileOp_refines geo).run (Holds.formatted new) allows
  obtain ⟨entries, root, files, rep, clean⟩ := after
  exact ⟨mem, mem', _, created, run, volume_open rep.dir.volume, Holds.ls ⟨entries, root, files, rep, clean⟩⟩

theorem files_remount_one : ∃ mem mem' replies, EasyFileSystem.create 32768 1 (fun _ => 0) = .ok (packedDisk.fs, mem) ∧
    execAll (FileOp.exec packedDisk.fs (packedDisk.place 0)) [.create [0x61]] mem = .ok (replies, mem') ∧
    EasyFileSystem.open mem' = .ok (packedDisk.fs, mem') ∧ (packedDisk.place 0).ls mem' = .ok ([[0x61]], mem') := by
  have valid : ValidName [0x61] := by decide
  exact files_remount packedDisk (fun _ => 0) [.create [0x61]] ⟨⟨by decide, valid, by decide, fun _ => by decide⟩, trivial⟩

end SecureIpc.Guarantees
