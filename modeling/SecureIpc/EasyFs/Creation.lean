import SecureIpc.EasyFs.Directory

/-! Creating a file: a new inode behind the others, and a new entry at the end of the directory. -/

namespace SecureIpc.EasyFs
open Lib

section
variable {geo : Geometry} {nodes : List Node} {mem mem' : Memory} {n : Nat} {type : DiskInodeType}

/-! ### A new inode -/

/-- The disks differ only in the inode bitmap and in inode `n`. -/
def Registers (geo : Geometry) (n : Nat) (mem mem' : Memory) : Prop :=
  ∀ x, x / 512 ∉ geo.fs.inodeBitmap.ids → ¬((geo.place n).addr ≤ x ∧ x < (geo.place n).addr + 125) → mem' x = mem x

theorem owned_fresh : owned (nodes ++ [.fresh type]) = owned nodes := by
  simp [owned, Node.fresh, BlockTree.empty, BlockTree.ids, BlockTree.index]

theorem fresh_found : (nodes ++ [Node.fresh type])[nodes.length]? = some (.fresh type) := List.getElem?_concat_length

theorem allocInode_spec (volume : Volume geo nodes mem) (small : nodes.length < 2 ^ 32) : wp (geo.fs.allocInode [])
    (fun n mem' => n = nodes.length ∧ nodes.length < geo.ib * 4096 ∧ (∀ k < geo.ib * 4096, geo.fs.inodeBitmap.bit mem' k = decide (k < nodes.length + 1)) ∧
      Outside geo.fs.inodeBitmap.ids mem mem') (fun _ => ¬nodes.length < geo.ib * 4096) mem := by
  unfold EasyFileSystem.allocInode
  have size := geo.inodeMaximum_eq
  refine wp_bind.mpr (wp_mono (alloc_next (fun m inside => volume.inodeBit m (size ▸ inside)) (by simp) (by decide)) ?_
    fun _ impossible => impossible.elim)
  rw [size]
  rintro _ mem' (⟨rfl, full⟩ | ⟨rfl, inside, changes⟩)
  · exact fun room => by omega
  · refine ⟨Nat.mod_eq_of_lt small, inside, fun k bound => ?_, changes.outside⟩
    rw [changes.bit k]
    by_cases same : k = nodes.length
    · simp [same]
    · rw [if_neg same, volume.inodeBit k bound]
      exact decide_eq_decide.mpr (by omega)

theorem Volume.append (volume : Volume geo nodes mem) (room : nodes.length < geo.ib * 4096)
    (bits : ∀ k < geo.ib * 4096, geo.fs.inodeBitmap.bit mem' k = decide (k < nodes.length + 1))
    (stored : DiskInode.load mem' (geo.place nodes.length).addr = (Node.fresh type).inode) (registers : Registers geo nodes.length mem mem') :
    Volume geo (nodes ++ [.fresh type]) mem' := by
  have areas := geo.areas
  have place := geo.place_spec room
  -- the blocks from the data bitmap on have not changed
  have behind : ∀ x, geo.bitmapStart ≤ x / 512 → mem' x = mem x := by
    intro x above
    apply registers x
    · rw [geo.mem_inodeBitmap]
      omega
    · intro mine
      have block := geo.place_block mine
      simp only [Geometry.place] at place
      omega
  refine ⟨?_, ?_, ?_, ?_, ?_, ?_⟩
  · rw [← volume.superBlock]
    apply SuperBlock.load_congr
    intro x low
    apply registers x
    · rw [geo.mem_inodeBitmap]
      omega
    · intro mine
      have block := geo.place_block mine
      omega
  · rw [List.length_append, List.length_singleton]
    exact room
  · rw [List.length_append, List.length_singleton]
    exact bits
  · intro m other found
    by_cases old : m < nodes.length
    · rw [List.getElem?_append_left old] at found
      rw [← volume.stored m other found]
      apply DiskInode.load_congr
      intro i low
      have block := @Geometry.place_block geo m ((geo.place m).addr + i) ⟨Nat.le_add_right _ _, Nat.add_lt_add_left low _⟩
      apply registers
      · rw [geo.mem_inodeBitmap]
        omega
      · intro mine
        have apart := @Geometry.place_apart geo nodes.length m _ (by omega) mine
        omega
    · obtain rfl : m = nodes.length := by
        have bound := (List.getElem?_eq_some_iff.mp found).1
        rw [List.length_append, List.length_singleton] at bound
        omega
      rw [fresh_found] at found
      rw [← Option.some.inj found]
      exact stored
  · intro m other found
    by_cases old : m < nodes.length
    · rw [List.getElem?_append_left old] at found
      obtain ⟨links, exact, count, bound⟩ := volume.sound m other found
      refine ⟨links.congr fun id mine i low => ?_, exact, count, bound⟩
      have area := (volume.area found (BlockTree.mem_ids.mpr (Or.inr mine))).1
      apply Memory.readNat_congr
      intro j small
      apply behind
      unfold blockAddr blockSz
      omega
    · have bound := (List.getElem?_eq_some_iff.mp found).1
      rw [List.length_append, List.length_singleton] at bound
      obtain rfl : m = nodes.length := by omega
      rw [fresh_found] at found
      rw [← Option.some.inj found]
      exact Node.fresh_sound _ _
  · rw [owned_fresh]
    apply volume.marks.congr
    intro x bitmap
    rw [geo.mem_dataBitmap] at bitmap
    exact behind x bitmap.1

section
variable (volume : Volume geo nodes mem) (room : nodes.length < geo.ib * 4096) (registers : Registers geo nodes.length mem mem')
include volume room registers

theorem Registers.view {other : Node} {i m : Nat} (found : nodes[m]? = some other) (inside : i < 512 * other.tree.data.length) :
    other.tree.view mem' i = other.tree.view mem i := by
  have areas := geo.areas
  have place := geo.place_spec room
  apply BlockTree.view_congr _ inside
  intro x mine
  have area := (volume.area found (BlockTree.mem_ids.mpr (Or.inl mine))).1
  apply registers x
  · rw [geo.mem_inodeBitmap]
    omega
  · intro inode
    have block := geo.place_block inode
    simp only [Geometry.place] at place
    omega

theorem Registers.contents {other : Node} {m : Nat} (found : nodes[m]? = some other) : other.contents mem' = other.contents mem := by
  apply Memory.load_congr
  intro i inside
  rw [Nat.zero_add]
  exact registers.view volume room found ((volume.sound m other found).within inside)

theorem Registers.clean (clean : Clean geo nodes mem) : Clean geo (nodes ++ [.fresh type]) mem' := by
  have areas := geo.areas
  have place := geo.place_spec room
  refine ⟨?_, ?_, ?_⟩
  · rw [owned_fresh]
    exact clean.inside
  · rw [owned_fresh]
    intro x above below free
    rw [registers x, clean.zero x above below free]
    · rw [geo.mem_inodeBitmap]
      omega
    · intro inode
      have block := geo.place_block inode
      simp only [Geometry.place] at place
      omega
  · intro m other found i low high
    by_cases old : m < nodes.length
    · rw [List.getElem?_append_left old] at found
      rw [registers.view volume room found (by rwa [(volume.sound m other found).count])]
      exact clean.tail m other found i low high
    · have bound := (List.getElem?_eq_some_iff.mp found).1
      rw [List.length_append, List.length_singleton] at bound
      obtain rfl : m = nodes.length := by omega
      rw [fresh_found] at found
      rw [← Option.some.inj found] at high
      simp [Node.fresh, blocksOf] at high

end

theorem register_spec {α : Type} {next : Nat → FsM α} {Q : α → Memory → Prop} {E : FsFault → Prop} (volume : Volume geo nodes mem)
    (small : nodes.length < 2 ^ 32) (full : ¬nodes.length < geo.ib * 4096 → ∀ fault, E fault)
    (rest : ∀ mem', nodes.length < geo.ib * 4096 → Registers geo nodes.length mem mem' → Volume geo (nodes ++ [.fresh .file]) mem' →
      wp (next nodes.length) Q E mem') :
    wp (do
      let newInodeId ← geo.fs.allocInode []
      let newInode ← Inode.ofId geo.fs newInodeId
      EasyFileSystem.storeInode [] newInode.blockId newInode.blockOffset (.initialized .file)
      next newInodeId) Q E mem := by
  refine wp_bind.mpr (wp_mono (allocInode_spec volume small) ?_ fun fault none => full none fault)
  rintro n mem₁ ⟨rfl, room, bits, outside⟩
  have place := geo.place_spec room
  have inside : (geo.place nodes.length).blockOffset + diskInodeSize ≤ blockSz := place.2.2
  rw [wp_bind, Directory.ofId small]
  simp only [EasyFileSystem.storeInode, if_pos inside, wp_bind, wp_lockBlock List.not_mem_nil (by decide : [].length < 15), wp_modify]
  have addr : blockAddr (geo.place nodes.length).blockId + (geo.place nodes.length).blockOffset = (geo.place nodes.length).addr := rfl
  have fits := DiskInode.initialized_fits .file
  rw [addr]
  have registers : Registers geo nodes.length mem ((DiskInode.initialized .file).store mem₁ (geo.place nodes.length).addr) := by
    intro x bitmap inode
    rw [DiskInode.store_outside fits (by omega), outside x bitmap]
  refine rest _ room registers (volume.append room (fun k bound => ?_) ?_ registers)
  · rw [← bits k bound]
    apply Bitmap.bit_congr (by rwa [geo.inodeMaximum_eq])
    intro x bitmap
    apply DiskInode.store_outside fits
    rw [geo.mem_inodeBitmap] at bitmap
    have block := @Geometry.place_block geo nodes.length x
    omega
  · rw [DiskInode.load_store fits]
    exact (BlockTree.empty_inode .file).symm

end

/-! ### A new entry -/

/-- There is an inode for one more file, and room for its entry. -/
def Space (geo : Geometry) (entries : List DirEntry) (root : Node) (files : List Node) : Prop :=
  files.length + 1 < geo.ib * 4096 ∧ 32 * (entries.length + 1) ≤ maxBlocks * 512 ∧ Room geo (root :: files) root (32 * (entries.length + 1))

/-- The files have kept their contents, and the disk is clean if it was. -/
structure Keeps (geo : Geometry) (files : List Node) (nodes nodes' : List Node) (mem mem' : Memory) : Prop where
  contents : ∀ (m : Nat) (other : Node), files[m]? = some other → other.contents mem' = other.contents mem
  clean : Clean geo nodes mem → Clean geo nodes' mem'

section
variable {geo : Geometry} {entries : List DirEntry} {root root' : Node} {files : List Node} {mem mem' : Memory} {name : Utf8}

namespace Directory

theorem rewrite (dir : Directory geo entries root files mem) :
    Directory geo entries root files (root.inode.store mem (geo.place 0).addr) ∧
      Keeps geo files (root :: files) (root :: files) mem (root.inode.store mem (geo.place 0).addr) := by
  have found : (root :: files)[0]? = some root := rfl
  have sound := dir.volume.sound 0 root found
  obtain ⟨after, touches, view⟩ := (Working.start dir.volume found).store found dir.volume
  have same : (root :: files).set 0 root = root :: files := rfl
  refine ⟨⟨by rwa [same] at after, dir.count, dir.type, ?_, dir.entry⟩, fun m other found' => ?_, fun clean => ?_⟩
  · rw [← dir.contents]
    apply Memory.load_congr
    intro i inside
    rw [Nat.zero_add]
    exact view i (sound.within inside)
  · exact contents_kept dir.volume found after touches (m := m + 1) found' (by omega)
  · have after' := clean.update dir.volume found after touches (fun id mine => clean.inside id (mem_owned.mpr ⟨0, root, found, mine⟩))
      (fun x mine unused => absurd mine unused) fun i behind inside => by
        rw [← sound.count] at inside
        rw [view i inside]
        exact clean.tail 0 root found i behind (by rwa [sound.count] at inside)
    rwa [same] at after'

structure Created (geo : Geometry) (entries : List DirEntry) (root : Node) (files : List Node) (name : Utf8) (root' : Node) (mem mem' : Memory) :
    Prop where
  fits : name.length ≤ 28
  dir : Directory geo (entries ++ [.padded name (files.length + 1)]) root' (files ++ [.fresh .file]) mem'
  contents : ∀ (m : Nat) (other : Node), files[m]? = some other → other.contents mem' = other.contents mem
  clean : Room geo (root :: files) root (32 * (entries.length + 1)) → Clean geo (root :: files) mem →
    Clean geo (root' :: (files ++ [.fresh .file])) mem'

/-- The entry is appended to the directory. -/
theorem appendEntry (dir : Directory geo entries root files mem) (registers : Registers geo (root :: files).length mem mem')
    (room : (root :: files).length < geo.ib * 4096) (volume : Volume geo (root :: files ++ [.fresh .file]) mem') :
    wp ((geo.place 0).modifyDiskInode [] fun held rootInode => do
      let fileCount := rootInode.size / direntSz
      let newSize := (fileCount + 1) * direntSz
      let rootInode ← Inode.increaseSize geo.fs held (newSize % 2 ^ 32) rootInode
      let dirent ← DirEntry.new name (root :: files).length
      let _ ← rootInode.writeAt held (fileCount * direntSz) dirent.asBytes
      return ((), rootInode)) (fun _ mem'' => ∃ root', Created geo entries root files name root' mem mem'')
      (fun fault => ¬name.length ≤ 28 ∧ NameFault fault ∨ ¬Space geo entries root files) mem' := by
  have found : (root :: files ++ [.fresh .file])[0]? = some root := rfl
  have few := dir.few
  have size := dir.size
  have width : direntSz = 32 := rfl
  have counted : root.inode.size / 32 = entries.length := by
    rw [show root.inode.size = root.size from rfl, size]
    omega
  have whole : (entries.length + 1) * 32 % 2 ^ 32 = 32 * (entries.length + 1) := by omega
  have rooms : ∀ newSize, Room geo (root :: files ++ [.fresh .file]) root newSize ↔ Room geo (root :: files) root newSize := by
    intro newSize
    rw [Room, owned_fresh]
    exact Iff.rfl
  rw [modifyDiskInode_rule volume found]
  simp only [counted, width, whole, wp_bind, wp_pure]
  refine wp_mono ((Working.start volume found).increaseSize found volume) ?_ fun _ fails => Or.inr fun space => fails ?_
  · rintro inode mem₁ ⟨root', taken, rfl, working, extended, within⟩
    rw [set_same found] at within
    refine wp_mono DirEntry.new_spec ?_ fun _ long => Or.inl long
    rintro entry _ ⟨rfl, fits, rfl⟩
    have length : (DirEntry.padded name (root :: files).length).asBytes.length = 32 := DirEntry.asBytes_length (DirEntry.padded_length fits)
    have grown : root'.size = 32 * (entries.length + 1) := by
      rw [extended.size, size]
      omega
    refine wp_mono (working.writeAt found volume) ?_ fun _ fails => absurd ⟨?_, ?_⟩ fails
    · rintro written mem₂ ⟨amount, working₂, wrote⟩
      rw [List.take_of_length_le (by rw [amount, length]; omega)] at wrote
      have done := working₂.written volume found extended wrote within rfl
      have bytes := done.contents_gap found volume (fun i behind before => by omega) (by rw [length]; omega)
      have before : root.contents mem' = entries.flatMap DirEntry.asBytes := by
        rw [registers.contents dir.volume room (show (root :: files)[0]? = some root from rfl), dir.contents]
      have contents : ∀ (m : Nat) (other : Node), files[m]? = some other →
          other.contents (root'.inode.store mem₂ (geo.place 0).addr) = other.contents mem := by
        intro m other found'
        have inFiles : (root :: files)[m + 1]? = some other := found'
        have inNodes : (root :: files ++ [.fresh .file])[m + 1]? = some other := by
          rw [List.getElem?_append_left (List.getElem?_eq_some_iff.mp inFiles).1, inFiles]
        rw [contents_kept volume found done.volume done.touches inNodes (by omega), registers.contents dir.volume room inFiles]
      refine ⟨root', fits, ⟨done.volume, ?_, ?_, ?_, ?_⟩, contents, fun roomy clean => ?_⟩
      · simp [dir.count]
      · rw [done.type, dir.type]
      · have position : entries.length * 32 = (root.contents mem').length := by
          rw [before, flatMap_length dir.width, Nat.mul_comm]
        rw [bytes, position, overwrite_end, before, List.flatMap_append]
        simp
      · intro i entry at'
        rcases snoc_getElem?.mp at' with old | ⟨rfl, rfl⟩
        · exact dir.entry i entry old
        · exact ⟨DirEntry.padded_length fits, by rw [← dir.count]; rfl⟩
      · exact done.clean found volume (registers.clean dir.volume room clean) ((rooms _).mpr roomy) (by rw [length]; omega)
    · intro empty
      rw [empty] at length
      cases length
    · rw [length, grown]
      omega
  · refine ⟨?_, by rw [set_same found, rooms]; exact space.2.2⟩
    have bound := space.2.1
    unfold blocksOf
    omega

/-- `create` returns nothing for a name that is there, and makes a file otherwise. It stops only in a directory that cannot
be read, or for a new name that does not fit or finds no space. -/
theorem create (dir : Directory geo entries root files mem) : wp ((geo.place 0).create geo.fs name) (fun r mem' =>
    (∃ n, lookup entries name = some n) ∧ r = none ∧ Directory geo entries root files mem' ∧ Keeps geo files (root :: files) (root :: files) mem mem' ∨
      lookup entries name = none ∧ Readable entries ∧ r = some (geo.place (files.length + 1)) ∧
        ∃ root', Created geo entries root files name root' mem mem')
    (fun fault => (¬Readable entries ∨ lookup entries name = none ∧ ¬name.length ≤ 28) ∧ NameFault fault ∨
      lookup entries name = none ∧ Readable entries ∧ ¬Space geo entries root files) mem := by
  have found : (root :: files)[0]? = some root := rfl
  have directory : root.inode.isDir = true := by
    rw [DiskInode.isDir, Node.inode, BlockTree.inode, dir.type]
    rfl
  have few := dir.few
  have count := dir.count
  rw [Inode.create, wp_bind, modifyDiskInode_rule dir.volume found]
  simp only [if_pos directory, wp_bind, wp_pure]
  refine wp_mono dir.findInodeId ?_ fun fault unread => Or.inl ⟨Or.inl unread.1, unread.2⟩
  rintro r _ ⟨rfl, rfl, readable⟩
  obtain ⟨dir₁, keeps₁⟩ := dir.rewrite
  cases present : lookup entries name with
  | some n => exact Or.inl ⟨⟨n, rfl⟩, rfl, dir₁, keeps₁⟩
  | none =>
    refine register_spec dir₁.volume (by rw [List.length_cons]; omega) (fun full fault => Or.inr ⟨rfl, readable present, fun space => full space.1⟩) ?_
    intro mem₂ room registers volume
    refine wp_bind.mpr (wp_mono (dir₁.appendEntry registers room volume) ?_ fun fault fails => ?_)
    · rintro _ mem₃ ⟨root', created⟩
      rw [wp_bind, ofId (by rw [List.length_cons]; omega)]
      refine Or.inr ⟨rfl, readable present, rfl, root', created.fits, created.dir, fun m other at' => ?_, fun roomy clean => created.clean roomy (keeps₁.clean clean)⟩
      exact (created.contents m other at').trans (keeps₁.contents m other at')
    · exact fails.imp (fun long => ⟨Or.inr ⟨rfl, long.1⟩, long.2⟩) fun full => ⟨rfl, readable present, full⟩

end Directory

end

/-! ### A new disk -/

section
variable {geo : Geometry} {mem : Memory}

theorem place_root : (geo.place 0).addr = blockAddr (1 + geo.ib) := by
  simp [Geometry.place, Inode.addr]

theorem Formatted.directory (disk : Formatted geo.total geo.ib mem) : Directory geo [] (.fresh .directory) [] mem := by
  have inodes := geo.inodes
  have empty : owned [Node.fresh .directory] = [] := rfl
  have single : ∀ (n : Nat) (node : Node), [Node.fresh .directory][n]? = some node → n = 0 ∧ node = .fresh .directory := by
    intro n node found
    cases n with
    | zero => exact ⟨rfl, (Option.some.inj found).symm⟩
    | succ n => cases found
  refine ⟨⟨disk.superBlock, ?_, ?_, ?_, ?_, ?_⟩, rfl, rfl, rfl, by simp⟩
  · rw [List.length_singleton]
    omega
  · intro n inside
    rw [show geo.fs = formatted geo.total geo.ib from rfl, disk.inodeBit n inside]
    exact decide_eq_decide.mpr (by rw [List.length_singleton]; omega)
  · intro n node found
    obtain ⟨rfl, rfl⟩ := single n node found
    rw [place_root, disk.root]
    exact (BlockTree.empty_inode .directory).symm
  · intro n node found
    obtain ⟨rfl, rfl⟩ := single n node found
    exact Node.fresh_sound _ _
  · rw [empty]
    refine ⟨fun n inside => ?_, by simp, List.nodup_nil⟩
    rw [← geo.dataMaximum_eq] at inside
    have clear := disk.dataBit inside (Or.inl (by rw [geo.inodeArea_eq]; omega))
    rw [show geo.fs = formatted geo.total geo.ib from rfl, clear]
    simp

theorem Formatted.clean (disk : Formatted geo.total geo.ib mem) : Clean geo [.fresh .directory] mem := by
  have areas := geo.areas
  have inodes := geo.inodes
  refine ⟨by simp [owned, Node.fresh, BlockTree.empty, BlockTree.ids, BlockTree.index], fun x above below _ => ?_, ?_⟩
  · apply disk.zero x
    · unfold blockAddr blockSz
      omega
    · unfold blockAddr blockSz
      omega
    · unfold blockAddr blockSz
      omega
  · intro n node found i _ high
    cases n with
    | zero =>
      rw [← Option.some.inj found] at high
      simp [Node.fresh, blocksOf] at high
    | succ n => cases found

end

end SecureIpc.EasyFs
