import SecureIpc.Guarantees.Files
import SecureIpc.Mm.UserCopy
import SecureIpc.Run.Step

/-!
`OSInode::read` and `OSInode::write` go through a user buffer page by page. Over the file system on a disk they do
what one `read_at` or `write_at` of the whole buffer does.
-/

namespace SecureIpc.Guarantees
open Lib EasyFs

def easyFs (fs : EasyFileSystem) (root : Inode) : FileSystem where
  State := Memory
  Inode := Inode
  find name disk := (root.find fs name disk).toOption
  create name disk := (root.create fs name disk).toOption
  clear inode disk := (inode.clear fs disk).toOption.map Prod.snd
  readAt inode offset len disk := (inode.readAt offset len disk).toOption
  writeAt inode offset buf disk := (inode.writeAt fs offset buf disk).toOption

def onEasyFs (geo : Geometry) (base : Platform) (disk : Memory) : Platform :=
  { base with fs := easyFs geo.fs (geo.place 0), disk }

def segmentsLen (segments : List Slice) : Nat := (segments.map Slice.len).sum

/-- The kernel after a transfer: another offset, and what it has changed in memory and on the disk. -/
def moved {geo : Geometry} {base : Platform} {start : Memory} (k : Kernel (onEasyFs geo base start)) (inner offset : Nat) (inode : Inode)
    (mem disk : Memory) : Kernel (onEasyFs geo base start) :=
  { k with mm := { k.mm with mem }, disk := disk, inodes := Kernel.set k.inodes inner (some ⟨offset, inode⟩) }

section
variable {geo : Geometry} {base : Platform} {start disk disk' : Memory} {k : Kernel (onEasyFs geo base start)} {inner offset total i : Nat}
  {inode : Inode} {map : FileMap} {file : Utf8 × List UInt8} {segments : List Slice} {mem : Memory}

theorem moved_same (opened : k.inodes inner = some ⟨offset, inode⟩) : moved k inner offset inode k.mm.mem k.disk = k := by
  unfold moved
  rw [Kernel.set_self opened]

theorem moved_moved {offset' : Nat} {mem' : Memory} : moved (moved k inner offset inode mem disk) inner offset' inode mem' disk' =
    moved k inner offset' inode mem' disk' := by
  unfold moved
  rw [Kernel.set_set]

theorem moved_opened : (moved k inner offset inode mem disk).inodes inner = some ⟨offset, inode⟩ := Kernel.set_same _ _ _

theorem wp_onDisk {P : Platform} {k : Kernel P} {α : Type} {operation : P.fs.State → Option (α × P.fs.State)} {a : α} {disk : P.fs.State}
    {Q : α → Kernel P → Prop} {E : Halt → Prop} (run : operation k.disk = some (a, disk)) :
    wp (onDisk operation) Q E k ↔ Q a { k with disk } := by
  unfold wp onDisk
  rw [run]

/-! ### Reading -/

theorem slice_split {bytes : List UInt8} {len more : Nat} :
    slice bytes offset (len + more) = slice bytes offset len ++ slice bytes (offset + (slice bytes offset len).length) more ∧
      (slice bytes offset (len + more)).take len = slice bytes offset len ∧
      (slice bytes offset (len + more)).drop len = slice bytes (offset + (slice bytes offset len).length) more := by
  have first : (slice bytes offset (len + more)).take len = slice bytes offset len := by
    rw [slice, slice, List.take_take, Nat.min_eq_left (Nat.le_add_right _ _)]
  have second : (slice bytes offset (len + more)).drop len = slice bytes (offset + (slice bytes offset len).length) more := by
    have length := @slice_length bytes offset len
    by_cases whole : offset + len ≤ bytes.length
    · rw [show (slice bytes offset len).length = len by omega, slice, slice, List.drop_take, List.drop_drop, Nat.add_sub_cancel_left]
    · rw [slice, slice, List.drop_take, List.drop_drop, List.drop_of_length_le (by omega), List.drop_of_length_le (by omega),
        List.take_nil, List.take_nil]
  refine ⟨?_, first, second⟩
  rw [← second, ← first, List.take_append_drop]

theorem store_nothing {addr : Nat} : mem.store addr [] = mem := by
  funext x
  exact Memory.store_outside (by rw [List.length_nil]; omega)

theorem storeSegments_nothing : storeSegments segments [] mem = mem := by
  induction segments generalizing mem with
  | nil => rfl
  | cons segment rest ih => rw [storeSegments, List.drop_nil, List.take_nil, store_nothing, ih]

theorem file_bound (holds : Holds geo map disk) (found : map[i]? = some file) : file.2.length ≤ maxBlocks * 512 := by
  obtain ⟨entries, root, files, rep, _⟩ := holds
  obtain ⟨node, here, _, size⟩ := rep.node_of found
  have inNodes : (root :: files)[i + 1]? = some node := here
  have bound := (rep.dir.volume.sound (i + 1) node inNodes).bound
  rw [size] at bound
  unfold blocksOf at bound
  omega

/-- The loop over the segments reads what is left of the file from the offset on. -/
theorem readInode_spec (opened : k.inodes inner = some ⟨offset, geo.place (i + 1)⟩) (holds : Holds geo map k.disk)
    (found : map[i]? = some file) (low : offset + 4096 < 2 ^ 64) (pages : ∀ segment ∈ segments, 0 < segment.len ∧ segment.len ≤ 4096) :
    wp (readInode inner segments total) (fun count k' => count = total + (slice file.2 offset (segmentsLen segments)).length ∧
      k' = moved k inner (offset + (slice file.2 offset (segmentsLen segments)).length) (geo.place (i + 1))
        (storeSegments segments (slice file.2 offset (segmentsLen segments)) k.mm.mem) k.disk) (fun _ => False) k := by
  have bound := file_bound holds found
  unfold maxBlocks at bound
  induction segments generalizing k offset total with
  | nil =>
    have nothing : slice file.2 offset (segmentsLen []) = [] := List.take_zero
    rw [readInode, wp_pure, nothing]
    exact ⟨rfl, (moved_same opened).symm⟩
  | cons segment rest ih =>
    obtain ⟨⟨some, page⟩, others⟩ := List.forall_mem_cons.mp pages
    have run : (onEasyFs geo base start).fs.readAt (geo.place (i + 1)) offset segment.len k.disk = .some (slice file.2 offset segment.len, k.disk) := by
      have read := holds.readAt found (show offset + segment.len < 2 ^ 64 by omega)
      exact congrArg Except.toOption read
    have total' : segmentsLen (segment :: rest) = segment.len + segmentsLen rest := by simp [segmentsLen]
    obtain ⟨split, first, second⟩ := @slice_split offset file.2 segment.len (segmentsLen rest)
    have length := @slice_length file.2 offset segment.len
    rw [readInode, wp_bind, wp_inodeInner opened, wp_bind, wp_onDisk run]
    simp only [wp_bind, wp_modify, wp_ite, wp_pure]
    rw [total', storeSegments, first, second, List.take_of_length_le (show (slice file.2 offset segment.len).length ≤ segment.len by omega)]
    by_cases empty : (slice file.2 offset segment.len).length = 0
    · rw [if_pos empty]
      have nothing := List.length_eq_zero_iff.mp empty
      have behind : slice file.2 offset (segmentsLen rest) = [] := by
        rw [slice, List.drop_of_length_le (by omega), List.take_nil]
      rw [split, nothing, List.nil_append, List.length_nil, Nat.add_zero, behind, storeSegments_nothing, store_nothing]
      exact ⟨rfl, (moved_same opened).symm⟩
    · rw [if_neg empty]
      simp only [setInodeOffset, wp_modify]
      have step := @ih (moved k inner (offset + (slice file.2 offset segment.len).length) (geo.place (i + 1))
        (k.mm.mem.store segment.base (slice file.2 offset segment.len)) k.disk) (offset + (slice file.2 offset segment.len).length)
        (total + (slice file.2 offset segment.len).length) moved_opened holds (by omega) others
      refine wp_mono step ?_ fun _ impossible => impossible
      rintro count k' ⟨rfl, rfl⟩
      rw [split, List.length_append, ← Nat.add_assoc, ← Nat.add_assoc]
      exact ⟨rfl, moved_moved⟩

/-! ### The buffer -/

theorem loadSegments_length : (loadSegments mem segments).length = segmentsLen segments := by
  simp [loadSegments, segmentsLen, List.length_flatMap]

theorem load_store_part {addr len : Nat} {bytes : List UInt8} (short : bytes.length ≤ len) :
    (mem.store addr bytes).load addr len = bytes ++ (mem.load addr len).drop bytes.length := by
  obtain ⟨more, rfl⟩ := Nat.exists_eq_add_of_le short
  rw [Memory.load_add, Memory.load_store_same, Memory.load_store_other (Or.inr (Nat.le_refl _)), Memory.load_add,
    List.drop_left' (Memory.load_length _ _ _)]

/-- The segments hold the bytes, and after them what they have held. -/
theorem load_storeSegments {bytes : List UInt8} (apart : (segments.flatMap Slice.addrs).Nodup) (short : bytes.length ≤ segmentsLen segments) :
    loadSegments (storeSegments segments bytes mem) segments = bytes ++ (loadSegments mem segments).drop bytes.length := by
  induction segments generalizing bytes mem with
  | nil =>
    obtain rfl := List.length_eq_zero_iff.mp (Nat.le_zero.mp short)
    rfl
  | cons segment rest ih =>
    have total : segmentsLen (segment :: rest) = segment.len + segmentsLen rest := by simp [segmentsLen]
    rw [List.flatMap_cons, List.nodup_append] at apart
    obtain ⟨_, restApart, different⟩ := apart
    have cons : ∀ mem : Memory, loadSegments mem (segment :: rest) = mem.load segment.base segment.len ++ loadSegments mem rest := fun mem => rfl
    have first : (storeSegments rest (bytes.drop segment.len) (mem.store segment.base (bytes.take segment.len))).load segment.base segment.len =
        bytes.take segment.len ++ (mem.load segment.base segment.len).drop (bytes.take segment.len).length := by
      rw [← load_store_part (List.length_take_le _ _)]
      apply Memory.load_congr
      intro i inside
      apply storeSegments_outside
      intro later
      exact different _ (mem_addrs.mpr ⟨Nat.le_add_right _ _, Nat.add_lt_add_left inside _⟩) _ later rfl
    have others : loadSegments (mem.store segment.base (bytes.take segment.len)) rest = loadSegments mem rest := by
      rw [loadSegments_eq, loadSegments_eq]
      apply List.map_congr_left
      intro x later
      apply Memory.store_outside
      have outside : x ∉ segment.addrs := fun here => different x here x later rfl
      rw [mem_addrs] at outside
      rw [List.length_take]
      omega
    rw [cons, storeSegments, first, ih restApart (by rw [List.length_drop]; omega), others, cons, List.drop_append, Memory.load_length,
      List.length_drop, List.length_take]
    by_cases here : bytes.length ≤ segment.len
    · rw [Nat.min_eq_right here, List.take_of_length_le here, List.drop_of_length_le here, List.nil_append, List.append_assoc]
    · have full : ∀ n, segment.len ≤ n → (mem.load segment.base segment.len).drop n = [] := fun n le =>
        List.drop_of_length_le (by rwa [Memory.load_length])
      rw [Nat.min_eq_left (by omega), full _ (Nat.le_refl _), full _ (by omega), List.append_nil, List.nil_append, ← List.append_assoc,
        List.take_append_drop]

/-! ### Writing -/

/-- The loop over the segments writes their bytes one after the other. -/
theorem writeInode_spec (opened : k.inodes inner = some ⟨offset, geo.place (i + 1)⟩) (holds : Holds geo map k.disk) (found : map[i]? = some file)
    (pages : ∀ segment ∈ segments, 0 < segment.len ∧ segment.len ≤ 4096) (present : segments ≠ [])
    (limit : offset + segmentsLen segments ≤ maxBlocks * 512)
    (room : FileMap.usage (map.set i (file.1, overwrite file.2 offset (loadSegments k.mm.mem segments))) ≤ geo.capacity) :
    wp (writeInode inner segments total) (fun count k' => count = total + segmentsLen segments ∧
      ∃ disk, Holds geo (map.set i (file.1, overwrite file.2 offset (loadSegments k.mm.mem segments))) disk ∧
        k' = moved k inner (offset + segmentsLen segments) (geo.place (i + 1)) k.mm.mem disk) (fun _ => False) k := by
  induction segments generalizing k offset total map file with
  | nil => exact absurd rfl present
  | cons segment rest ih =>
    obtain ⟨⟨some, page⟩, others⟩ := List.forall_mem_cons.mp pages
    have total' : segmentsLen (segment :: rest) = segment.len + segmentsLen rest := by simp [segmentsLen]
    have cons : loadSegments k.mm.mem (segment :: rest) = Memory.load k.mm.mem segment.base segment.len ++ loadSegments k.mm.mem rest := rfl
    have length : (Memory.load k.mm.mem segment.base segment.len).length = segment.len := Memory.load_length _ _ _
    have restLength := @loadSegments_length rest k.mm.mem
    have bound := (List.getElem?_eq_some_iff.mp found).1
    -- the file after the first segment needs no more blocks than in the end
    have roomFirst : FileMap.usage (map.set i (file.1, overwrite file.2 offset (Memory.load k.mm.mem segment.base segment.len))) ≤ geo.capacity := by
      have now := @FileMap.usage_set map file (overwrite file.2 offset (Memory.load k.mm.mem segment.base segment.len)) i found
      have last := @FileMap.usage_set map file (overwrite file.2 offset (loadSegments k.mm.mem (segment :: rest))) i found
      have mono := totalOf_mono (@BlockTree.blocksOf_mono (overwrite file.2 offset (Memory.load k.mm.mem segment.base segment.len)).length
        (overwrite file.2 offset (loadSegments k.mm.mem (segment :: rest))).length (by
          rw [overwrite_length, overwrite_length, cons, List.length_append]
          omega))
      omega
    obtain ⟨disk, written, after⟩ := holds.writeAt found (show Memory.load k.mm.mem segment.base segment.len ≠ [] by
      intro empty
      rw [empty] at length
      simp at length
      omega) (by omega) roomFirst
    have run : (onEasyFs geo base start).fs.writeAt (geo.place (i + 1)) offset (Memory.load k.mm.mem segment.base segment.len) k.disk =
        .some (segment.len, disk) := by
      rw [length] at written
      exact congrArg Except.toOption written
    rw [writeInode, wp_bind, wp_inodeInner opened, wp_bind, userMemory, wp_read, wp_bind, wp_onDisk run, if_neg (by simp)]
    simp only [setInodeOffset, wp_bind, wp_modify]
    have found' : (map.set i (file.1, overwrite file.2 offset (Memory.load k.mm.mem segment.base segment.len)))[i]? =
        .some (file.1, overwrite file.2 offset (Memory.load k.mm.mem segment.base segment.len)) := by
      rw [List.getElem?_set_self bound]
    have joined : overwrite (overwrite file.2 offset (Memory.load k.mm.mem segment.base segment.len)) (offset + segment.len) (loadSegments k.mm.mem rest) =
        overwrite file.2 offset (loadSegments k.mm.mem (segment :: rest)) := by
      rw [cons, ← overwrite_append, length]
    cases rest with
    | nil =>
      have single : loadSegments k.mm.mem [segment] = Memory.load k.mm.mem segment.base segment.len := List.append_nil _
      rw [single]
      exact ⟨by simp [segmentsLen], disk, after, by simp [segmentsLen, moved]⟩
    | cons next more =>
      have step := @ih (moved k inner (offset + segment.len) (geo.place (i + 1)) k.mm.mem disk) (offset + segment.len) (total + segment.len)
        (map.set i (file.1, overwrite file.2 offset (Memory.load k.mm.mem segment.base segment.len)))
        (file.1, overwrite file.2 offset (Memory.load k.mm.mem segment.base segment.len)) moved_opened after found' others (by simp) (by omega)
        (by
          rw [List.set_set]
          exact joined ▸ room)
      refine wp_mono step ?_ fun _ impossible => impossible
      rintro count k' ⟨rfl, disk', last, rfl⟩
      refine ⟨by omega, disk', ?_, ?_⟩
      · rw [List.set_set] at last
        rw [← joined]
        exact last
      · rw [total', ← Nat.add_assoc]
        exact moved_moved

end

/-! ### Any division of the buffer -/

/-- `read` returns what is left of the file from the offset on, as far as the buffer reaches, and puts it at the start of the
buffer; `write` leaves the file as if the bytes of the buffer had been written at once. The offset moves by the number of bytes. -/
theorem segments_transfer_whole (geo : Geometry) (base : Platform) (start : Memory) (k : Kernel (onEasyFs geo base start)) (inner offset i : Nat)
    (map : FileMap) (file : Utf8 × List UInt8) (segments : List Slice) (opened : k.inodes inner = some ⟨offset, geo.place (i + 1)⟩)
    (holds : Holds geo map k.disk) (found : map[i]? = some file) (low : offset + 4096 < 2 ^ 64)
    (pages : ∀ segment ∈ segments, 0 < segment.len ∧ segment.len ≤ 4096) (apart : (segments.flatMap Slice.addrs).Nodup) :
    (∃ bytes mem, bytes.length = min (segmentsLen segments) (file.2.length - offset) ∧
      readInode inner segments 0 k = .ok (bytes.length, moved k inner (offset + bytes.length) (geo.place (i + 1)) mem k.disk) ∧
      bytes = slice file.2 offset (segmentsLen segments) ∧ loadSegments mem segments = bytes ++ (loadSegments k.mm.mem segments).drop bytes.length ∧
      (∀ x ∉ segments.flatMap Slice.addrs, mem x = k.mm.mem x) ∧
      (offset + segmentsLen segments < 2 ^ 64 → (geo.place (i + 1)).readAt offset (segmentsLen segments) k.disk = .ok (bytes, k.disk))) ∧
    (segments ≠ [] → offset + segmentsLen segments ≤ maxBlocks * 512 →
      FileMap.usage (map.set i (file.1, overwrite file.2 offset (loadSegments k.mm.mem segments))) ≤ geo.capacity →
      ∃ disk disk', writeInode inner segments 0 k =
          .ok (segmentsLen segments, moved k inner (offset + segmentsLen segments) (geo.place (i + 1)) k.mm.mem disk) ∧
        (geo.place (i + 1)).writeAt geo.fs offset (loadSegments k.mm.mem segments) k.disk = .ok (segmentsLen segments, disk') ∧
        Holds geo (map.set i (file.1, overwrite file.2 offset (loadSegments k.mm.mem segments))) disk ∧
        Holds geo (map.set i (file.1, overwrite file.2 offset (loadSegments k.mm.mem segments))) disk') := by
  constructor
  · obtain ⟨count, k', run, rfl, rfl⟩ := wp_returns (@readInode_spec geo base start k inner offset 0 i map file segments opened holds found low pages)
    have length := @slice_length file.2 offset (segmentsLen segments)
    rw [Nat.zero_add] at run
    refine ⟨_, _, by omega, run, rfl, load_storeSegments apart (by omega), fun x outside => storeSegments_outside outside, fun fits => ?_⟩
    exact holds.readAt found fits
  · intro present limit room
    obtain ⟨count, k', run, rfl, disk, after, rfl⟩ :=
      wp_returns (@writeInode_spec geo base start k inner offset 0 i map file segments opened holds found pages present limit room)
    have length := @loadSegments_length segments k.mm.mem
    have some : loadSegments k.mm.mem segments ≠ [] := by
      intro empty
      obtain ⟨segment, rest, rfl⟩ := List.exists_cons_of_ne_nil present
      have page := (pages segment List.mem_cons_self).1
      rw [empty] at length
      simp only [segmentsLen, List.length_nil, List.map_cons, List.sum_cons] at length
      omega
    obtain ⟨disk', whole, after'⟩ := holds.writeAt found some (by rwa [length]) room
    rw [Nat.zero_add] at run
    rw [length] at whole
    exact ⟨disk, disk', run, whole, after, after'⟩

def openKernel (disk : Memory) (offset : Nat) : Kernel (onEasyFs packedDisk sample disk) :=
  { Kernel.blank (onEasyFs packedDisk sample disk) with inodes := Kernel.set (fun _ => none) 0 (some ⟨offset, packedDisk.place 1⟩) }

theorem openKernel_opened {disk : Memory} {offset : Nat} : (openKernel disk offset).inodes 0 = some ⟨offset, packedDisk.place 1⟩ := by
  simp [openKernel]

theorem exists_emptyFile : ∃ disk, Holds packedDisk [([0x61], [])] disk := by
  obtain ⟨mem, _, new⟩ := create_returns packedDisk.small packedDisk.sized packedDisk.inodes fun _ => 0
  obtain ⟨disk, _, holds⟩ := (Holds.formatted new).create_new (List.not_mem_nil) (show ValidName [0x61] by decide) (by decide) (by decide) (by decide)
  exact ⟨disk, holds⟩

/-- Three zeros in two segments, behind the end of the file. -/
theorem segments_transfer_whole_two : ∃ disk k', Holds packedDisk [([0x61], [])] disk ∧
    writeInode 0 [⟨8192, 1⟩, ⟨4096, 2⟩] 0 (openKernel disk 2) = .ok (3, k') ∧ Holds packedDisk [([0x61], [0, 0, 0, 0, 0])] k'.disk := by
  obtain ⟨disk, holds⟩ := exists_emptyFile
  have bytes : overwrite [] 2 (loadSegments (openKernel disk 2).mm.mem [⟨8192, 1⟩, ⟨4096, 2⟩]) = [0, 0, 0, 0, 0] := rfl
  have whole := (segments_transfer_whole packedDisk sample disk (openKernel disk 2) 0 2 0 [([0x61], [])] ([0x61], []) [⟨8192, 1⟩, ⟨4096, 2⟩]
    openKernel_opened holds rfl (by decide) (by decide) (by decide)).2
  rw [bytes] at whole
  obtain ⟨disk₁, _, run, _, after, _⟩ := whole (by decide) (by decide) (by decide)
  exact ⟨disk, _, holds, run, after⟩

end SecureIpc.Guarantees
