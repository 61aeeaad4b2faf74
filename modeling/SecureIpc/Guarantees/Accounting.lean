import SecureIpc.EasyFs.FileMap
import SecureIpc.Guarantees.Areas
import SecureIpc.Guarantees.BlockIndexing
import SecureIpc.Guarantees.Files

/-! The data bitmap accounts for the blocks of the inodes, in every state that calls on files reach. -/

namespace SecureIpc.Guarantees
open Lib EasyFs

/-! ### What the disk says -/

/-- The data blocks of an inode, as `get_block_id` finds them, and its index blocks. -/
def blocksOn (mem : Memory) (inode : DiskInode) : List Nat :=
  ((List.range (blocksOf inode.size)).filterMap fun j => (inode.getBlockId [] j mem).toOption.map Prod.fst) ++
    indexBlocks mem inode (blocksOf inode.size)

def inodeNumbers (fs : EasyFileSystem) (mem : Memory) : List Nat := (List.range fs.inodeBitmap.maximum).filter (fs.inodeBitmap.bit mem)

def inodeOn (fs : EasyFileSystem) (mem : Memory) (n : Nat) : Option DiskInode :=
  (fs.getDiskInodePos n mem).toOption.map fun place => DiskInode.load mem (blockAddr place.1.1 + place.1.2)

def ownedBlocks (fs : EasyFileSystem) (mem : Memory) : List Nat :=
  (inodeNumbers fs mem).flatMap fun n => (inodeOn fs mem n).elim [] (blocksOn mem)

/-- No block belongs to two inodes, the bits are those of the blocks that belong to one, and all other blocks are zero. -/
structure Accounted (fs : EasyFileSystem) (total : Nat) (mem : Memory) : Prop where
  distinct : (ownedBlocks fs mem).Nodup
  inside : ∀ id ∈ ownedBlocks fs mem, fs.dataAreaStartBlock ≤ id ∧ id < total
  marked : ∀ n < fs.dataBitmap.maximum, fs.dataBitmap.bit mem n = true ↔ n + fs.dataAreaStartBlock ∈ ownedBlocks fs mem
  zero : ∀ n < fs.dataBitmap.maximum, n + fs.dataAreaStartBlock < total → fs.dataBitmap.bit mem n = false →
    ∀ i < 512, mem (blockAddr (n + fs.dataAreaStartBlock) + i) = 0

/-! ### Calls that do not exhaust the disk -/

inductive Change where
  | create (name : Utf8)
  | writeAt (file : Inode) (offset : Nat) (buf : List UInt8)
  | clear (file : Inode)
  deriving DecidableEq, Repr

def Change.exec (fs : EasyFileSystem) (root : Inode) : Change → FsM Unit
  | .create name => do let _ ← root.create fs name
  | .writeAt file offset buf => do let _ ← file.writeAt fs offset buf
  | .clear file => file.clear fs

/-- An inode in use other than that of the root directory. -/
def IsFile (fs : EasyFileSystem) (mem : Memory) (file : Inode) : Prop :=
  ∃ n, 0 < n ∧ n < fs.inodeBitmap.maximum ∧ fs.inodeBitmap.bit mem n = true ∧
    fs.getDiskInodePos n mem = .ok ((file.blockId, file.blockOffset), mem)

def freeBlocks (fs : EasyFileSystem) (total : Nat) (mem : Memory) : Nat :=
  ((List.range (total - fs.dataAreaStartBlock)).filter fun n => !fs.dataBitmap.bit mem n).length

def CanGrow (fs : EasyFileSystem) (total : Nat) (mem : Memory) (file : Inode) (newSize : Nat) : Prop :=
  newSize ≤ (28 + 128 + 128 * 128) * 512 ∧
    ∀ needed, (DiskInode.load mem file.addr).blocksNumNeeded newSize mem = .ok (needed, mem) → needed ≤ freeBlocks fs total mem

def Fits (fs : EasyFileSystem) (total : Nat) (root : Inode) (mem : Memory) : Change → Prop
  | .create name => (∃ file, root.find fs name mem = .ok (some file, mem)) ∨
    (∃ n < fs.inodeBitmap.maximum, fs.inodeBitmap.bit mem n = false) ∧ CanGrow fs total mem root ((DiskInode.load mem root.addr).size + 32)
  | .writeAt file offset buf => IsFile fs mem file ∧ buf ≠ [] ∧ CanGrow fs total mem file (offset + buf.length)
  | .clear file => IsFile fs mem file

inductive Reached (fs : EasyFileSystem) (total : Nat) (root : Inode) (start : Memory) : Memory → Prop where
  | start : Reached fs total root start start
  | step {mem mem' : Memory} (change : Change) (before : Reached fs total root start mem) (fits : Fits fs total root mem change)
    (run : change.exec fs root mem = .ok ((), mem')) : Reached fs total root start mem'

section
variable {geo : Geometry} {nodes : List Node} {node : Node} {entries : List DirEntry} {root : Node} {files : List Node} {mem : Memory} {n : Nat}

/-! ### The disk and its nodes -/

theorem blocksOn_eq (sound : node.Sound mem) : blocksOn mem node.inode = node.tree.ids := by
  have size : node.inode.size = node.size := rfl
  have data : ((List.range (blocksOf node.size)).filterMap fun j => (node.inode.getBlockId [] j mem).toOption.map Prod.fst) = node.tree.data := by
    have each : ∀ j ∈ List.range (blocksOf node.size), (node.inode.getBlockId [] j mem).toOption.map Prod.fst = some (node.tree.data.getD j 0) := by
      intro j member
      have bound : j < node.tree.data.length := by
        rw [sound.count]
        exact List.mem_range.mp member
      have spec : wp (node.inode.getBlockId [] j) (fun b mem' => b = node.tree.data[j] ∧ mem' = mem) (fun _ => False) mem :=
        (sound.links.getBlockId (List.getElem?_eq_getElem bound) (by simp) (by decide)).mpr ⟨rfl, rfl⟩
      obtain ⟨b, mem', run, rfl, rfl⟩ := wp_returns spec
      rw [run, List.getD_eq_getElem _ _ bound]
      rfl
    rw [List.filterMap_congr each, List.filterMap_eq_map', ← sound.count]
    apply List.ext_getElem
    · simp
    · intro j _ bound
      rw [List.getElem_map, List.getElem_range, List.getD_eq_getElem _ _ bound]
  rw [blocksOn, size, data, ← sound.count, Node.inode, index_eq sound.links sound.exact, BlockTree.ids]

theorem inodeNumbers_eq (volume : Volume geo nodes mem) : inodeNumbers geo.fs mem = List.range nodes.length := by
  have few := volume.few
  rw [inodeNumbers, geo.inodeMaximum_eq]
  obtain ⟨more, whole⟩ := Nat.exists_eq_add_of_le few
  have set : (List.range nodes.length).filter (geo.fs.inodeBitmap.bit mem) = List.range nodes.length := by
    apply List.filter_eq_self.mpr
    intro n member
    have inside := List.mem_range.mp member
    rw [volume.inodeBit n (by omega), decide_eq_true_iff]
    exact inside
  have clear : ((List.range more).map (nodes.length + ·)).filter (geo.fs.inodeBitmap.bit mem) = [] := by
    apply List.filter_eq_nil_iff.mpr
    intro n member
    obtain ⟨k, below, rfl⟩ := List.mem_map.mp member
    have inside := List.mem_range.mp below
    rw [volume.inodeBit _ (by omega), decide_eq_true_iff]
    omega
  rw [whole, List.range_add, List.filter_append, set, clear, List.append_nil]

theorem inodeOn_eq (volume : Volume geo nodes mem) (fits : nodes.length < 2 ^ 32) (found : nodes[n]? = some node) :
    inodeOn geo.fs mem n = some node.inode := by
  have areas := geo.areas
  have small := geo.small
  have inside := volume.inside found
  have low := (List.getElem?_eq_some_iff.mp found).1
  have spec : wp (geo.fs.getDiskInodePos n) (fun place mem' => place = (1 + geo.ib + n / 4, n % 4 * 128) ∧ mem' = mem) (fun _ => False) mem :=
    (getDiskInodePos_spec (by omega) (by rw [geo.inodeAreaStart_eq]; omega)).mpr ⟨rfl, rfl⟩
  obtain ⟨place, mem', run, rfl, rfl⟩ := wp_returns spec
  rw [inodeOn, run]
  exact congrArg some (volume.stored n node found)

theorem flatMap_positions {α β : Type} (list : List α) (f : α → List β) :
    (List.range list.length).flatMap (fun n => (list[n]?.map f).getD []) = list.flatMap f := by
  induction list with
  | nil => rfl
  | cons a rest ih =>
    rw [List.length_cons, List.range_succ_eq_map, List.flatMap_cons, List.flatMap_map, List.flatMap_cons, ← ih]
    rfl

/-- The blocks that the disk says belong to inodes are those of the nodes. -/
theorem ownedBlocks_eq (volume : Volume geo nodes mem) (fits : nodes.length < 2 ^ 32) : ownedBlocks geo.fs mem = owned nodes := by
  have each : ∀ n ∈ List.range nodes.length, (inodeOn geo.fs mem n).elim [] (blocksOn mem) = (nodes[n]?.map fun node => node.tree.ids).getD [] := by
    intro n member
    have found := List.getElem?_eq_getElem (List.mem_range.mp member)
    rw [inodeOn_eq volume fits found, found]
    exact blocksOn_eq (volume.sound n _ found)
  rw [ownedBlocks, inodeNumbers_eq volume, List.flatMap_congr each, flatMap_positions, owned]

theorem accounted_of (volume : Volume geo nodes mem) (fits : nodes.length < 2 ^ 32) (clean : Clean geo nodes mem) :
    Accounted geo.fs geo.total mem := by
  have same := ownedBlocks_eq volume fits
  refine ⟨?_, ?_, ?_, ?_⟩
  · rw [same]
    exact volume.marks.distinct
  · rw [same, geo.dataAreaStart_eq]
    exact fun id member => ⟨(volume.marks.area id member).1, clean.inside id member⟩
  · rw [same, geo.dataAreaStart_eq, geo.dataMaximum_eq]
    intro n inside
    rw [volume.marks.bit n inside, decide_eq_true_iff]
  · rw [geo.dataAreaStart_eq, geo.dataMaximum_eq]
    intro n inside below clear i low
    rw [volume.marks.bit n inside, decide_eq_false_iff_not] at clear
    have block : (blockAddr (n + geo.dataStart) + i) / 512 = n + geo.dataStart := by
      unfold blockAddr blockSz
      omega
    apply clean.zero
    · omega
    · omega
    · rwa [block]

/-- The blocks in use and the free ones make up the data area. -/
theorem freeBlocks_eq (volume : Volume geo nodes mem) (clean : Clean geo nodes mem) :
    freeBlocks geo.fs geo.total mem + (owned nodes).length = geo.capacity := by
  have areas := geo.areas
  have used : (((List.range geo.capacity).filter (geo.fs.dataBitmap.bit mem)).map (· + geo.dataStart)).Perm (owned nodes) := by
    rw [List.perm_ext_iff_of_nodup]
    · intro id
      rw [List.mem_map]
      constructor
      · rintro ⟨n, member, rfl⟩
        obtain ⟨below, set⟩ := List.mem_filter.mp member
        rw [volume.marks.bit n (by have := List.mem_range.mp below; omega), decide_eq_true_iff] at set
        exact set
      · intro member
        have area := volume.marks.area id member
        have inside := clean.inside id member
        refine ⟨id - geo.dataStart, List.mem_filter.mpr ⟨List.mem_range.mpr (by omega), ?_⟩, by omega⟩
        rw [volume.marks.bit _ (by omega), Nat.sub_add_cancel area.1, decide_eq_true_iff]
        exact member
    · apply List.Nodup.map (fun a b same => by simpa using same)
      exact List.Nodup.filter _ List.nodup_range
    · exact volume.marks.distinct
  have length := used.length_eq
  rw [List.length_map] at length
  have split := List.length_eq_length_filter_add (l := List.range geo.capacity) (geo.fs.dataBitmap.bit mem)
  rw [List.length_range] at split
  rw [freeBlocks, geo.dataAreaStart_eq, show geo.total - geo.dataStart = geo.capacity by omega, ← length]
  omega

/-! ### One call -/

def Tidy (geo : Geometry) (mem : Memory) : Prop :=
  ∃ entries root files, Directory geo entries root files mem ∧ Clean geo (root :: files) mem

theorem isFile_node (dir : Directory geo entries root files mem) {file : Inode} (isFile : IsFile geo.fs mem file) :
    ∃ i node, file = geo.place (i + 1) ∧ (root :: files)[i + 1]? = some node := by
  obtain ⟨n, positive, inside, set, place⟩ := isFile
  obtain ⟨i, rfl⟩ := Nat.exists_eq_succ_of_ne_zero (Nat.pos_iff_ne_zero.mp positive)
  rw [geo.inodeMaximum_eq] at inside
  rw [dir.volume.inodeBit _ inside, decide_eq_true_iff] at set
  have areas := geo.areas
  have small := geo.small
  have fits := dir.fits
  have spec : wp (geo.fs.getDiskInodePos (i + 1)) (fun place mem' => place = (1 + geo.ib + (i + 1) / 4, (i + 1) % 4 * 128) ∧ mem' = mem)
      (fun _ => False) mem := (getDiskInodePos_spec (by omega) (by rw [geo.inodeAreaStart_eq]; omega)).mpr ⟨rfl, rfl⟩
  obtain ⟨_, _, run, rfl, rfl⟩ := wp_returns spec
  have same := (Prod.mk.inj (Except.ok.inj (place.symm.trans run))).1
  refine ⟨i, (root :: files)[i + 1], ?_, List.getElem?_eq_getElem set⟩
  cases file with
  | mk blockId blockOffset =>
    obtain ⟨rfl, rfl⟩ := Prod.mk.inj same
    rfl

theorem canGrow_room (volume : Volume geo nodes mem) (clean : Clean geo nodes mem) (found : nodes[n]? = some node) {newSize : Nat}
    (grow : CanGrow geo.fs geo.total mem (geo.place n) newSize) : Room geo nodes node newSize := by
  obtain ⟨limit, enough⟩ := grow
  have free := freeBlocks_eq volume clean
  rw [volume.stored n node found] at enough
  unfold Room
  by_cases larger : node.size ≤ newSize
  · have needed := @blocksNumNeeded_run node.inode newSize larger (by omega) mem
    have bound := enough _ needed
    rw [show node.inode.size = node.size from rfl] at bound
    omega
  · have mono := totalOf_mono (BlockTree.blocksOf_mono (Nat.le_of_lt (Nat.not_le.mp larger)))
    omega

/-- A call that fits keeps the disk tidy; only a name can stop it. -/
theorem change_spec (tidy : Tidy geo mem) {change : Change} (fits : Fits geo.fs geo.total (geo.place 0) mem change) :
    wp (change.exec geo.fs (geo.place 0)) (fun _ mem' => Tidy geo mem')
      (fun fault => (∃ name, change = .create name) ∧ NameFault fault) mem := by
  obtain ⟨entries, root, files, dir, clean⟩ := tidy
  cases change with
  | create name =>
    have count := dir.count
    have found : (root :: files)[0]? = some root := rfl
    have space : lookup entries name = none → Space geo entries root files := by
      intro unknown
      rcases fits with ⟨file, run⟩ | ⟨⟨n, inside, clear⟩, grow⟩
      · have spec := wp_ok (@Directory.find geo entries root files mem name dir) run
        rw [unknown] at spec
        cases spec.2
      · rw [dir.volume.stored 0 root found, show root.inode.size = root.size from rfl, dir.size] at grow
        rw [geo.inodeMaximum_eq] at inside
        rw [dir.volume.inodeBit n inside, decide_eq_false_iff_not, List.length_cons] at clear
        refine ⟨by omega, ?_, canGrow_room dir.volume clean found grow⟩
        exact grow.1
    simp only [Change.exec, wp_bind, wp_pure]
    refine wp_mono dir.create ?_ fun fault fails => ⟨⟨name, rfl⟩, ?_⟩
    · rintro r mem' (⟨_, _, dir', keeps⟩ | ⟨unknown, _, _, root', created⟩)
      · exact ⟨entries, root, files, dir', keeps.clean clean⟩
      · exact ⟨_, root', _, created.dir, created.clean (space unknown).2.2 clean⟩
    · rcases fails with ⟨_, fault⟩ | ⟨unknown, _, full⟩
      · exact fault
      · exact absurd (space unknown) full
  | writeAt file offset buf =>
    obtain ⟨isFile, some, grow⟩ := fits
    obtain ⟨i, node, rfl, found⟩ := isFile_node dir isFile
    have room := canGrow_room dir.volume clean found grow
    have whole : (offset + buf.length) % 2 ^ 32 = offset + buf.length := by
      have limit := grow.1
      omega
    simp only [Change.exec, wp_bind, wp_pure]
    refine wp_mono (writeAt_spec dir.volume found) ?_ fun _ fails => absurd ⟨some, grow.1, room⟩ fails
    rintro written mem' ⟨node', taken, amount, done⟩
    have all : written = buf.length := by
      rw [amount, done.size, whole]
      omega
    subst all
    rw [whole, List.take_length] at done
    exact ⟨entries, root, files.set i node', (dir.update found done.volume done.touches).1, done.clean found dir.volume clean room rfl⟩
  | clear file =>
    obtain ⟨i, node, rfl, found⟩ := isFile_node dir fits
    refine wp_mono (clear_spec dir.volume found) ?_ fun _ impossible => impossible.elim
    rintro _ mem' ⟨after, touches, zero⟩
    have both : Touches geo (i + 1) (node.tree.ids ++ (Node.fresh node.type).tree.ids) mem mem' :=
      touches.mono fun id member => List.mem_append_left _ member
    exact ⟨entries, root, files.set i (.fresh node.type), (dir.update found after both).1, clean.cleared dir.volume found after touches zero⟩

end

/-! ### Inode areas that have wrapped -/

section
variable {total ib : Nat} {mem : Memory}

theorem formatted_ownedBlocks (disk : Formatted total ib mem) (small : 1 + ib < 2 ^ 32) : ownedBlocks (formatted total ib) mem = [] := by
  have maximum : (formatted total ib).inodeBitmap.maximum = ib * 4096 := Bitmap.maximum_eq _
  have start : (formatted total ib).inodeAreaStartBlock = 1 + ib := rfl
  apply List.flatMap_eq_nil_iff.mpr
  intro n member
  obtain ⟨inside, set⟩ := List.mem_filter.mp member
  rw [List.mem_range, maximum] at inside
  rw [disk.inodeBit n inside, decide_eq_true_iff] at set
  subst set
  have root : inodeOn (formatted total ib) mem 0 = some (.initialized .directory) := by
    rw [inodeOn, getDiskInodePos_run (by decide) (by rw [start]; omega), start]
    simp [Except.toOption, disk.root]
  have empty : blocksOf (DiskInode.initialized .directory).size = 0 := rfl
  rw [root, Option.elim_some, blocksOn, empty]
  simp [indexBlocks]

/-- Where the size of the inode area has wrapped to zero, the type of the root inode is a bit of the data bitmap. -/
theorem wrapped_bit (disk : Formatted total ib mem) (wrapped : inodeArea ib = 0) (room : 1 + ib < total) :
    (formatted total ib).dataBitmap.bit mem 992 = true := by
  have start : (formatted total ib).dataBitmap.startBlockId = 1 + ib := by simp [formatted, wrapped]
  have type : mem (blockAddr (1 + ib) + 124) = 1 := by
    have directory := congrArg DiskInode.type disk.root
    by_contra other
    simp [DiskInode.load, DiskInode.initialized, other] at directory
  have zero : ∀ i, i < 512 → i ≠ 124 → mem (blockAddr (1 + ib) + i) = 0 := by
    intro i low other
    apply disk.zero
    all_goals
      unfold blockAddr blockSz
      omega
  have word : mem.load (blockAddr (1 + ib) + 120) 8 = [0, 0, 0, 0, 1, 0, 0, 0] := by
    simp [Memory.load, List.range_succ, Nat.add_assoc, type, zero]
  rw [Bitmap.bit, start, show 8 * (992 / 64) = 120 from rfl, Memory.readWord, word]
  rfl

end

/-! ### Every state that is reached -/

theorem reached_tidy {geo : Geometry} {mem mem' : Memory} (tidy : Tidy geo mem) (reached : Reached geo.fs geo.total (geo.place 0) mem mem') :
    Tidy geo mem' := by
  induction reached with
  | start => exact tidy
  | step change _ fits run ih =>
    have after := wp_ok (change_spec ih fits) run
    exact after

/-- On a new disk whose inode area holds all its inodes, the bits of the data bitmap are those of the blocks that the inodes
have, each of one inode, and free blocks are zero, in every state that calls reach which find room. Such a call returns, unless
it is a `create` that a name in the directory stops. -/
theorem blocks_accounted (geo : Geometry) (disk : Memory) :
    ∃ mem, EasyFileSystem.create geo.total geo.ib disk = .ok (geo.fs, mem) ∧
      ∀ mem', Reached geo.fs geo.total (geo.place 0) mem mem' → Accounted geo.fs geo.total mem' ∧
        ∀ change, Fits geo.fs geo.total (geo.place 0) mem' change →
          (∃ mem'', change.exec geo.fs (geo.place 0) mem' = .ok ((), mem'')) ∨
          ∃ name fault, change = .create name ∧ change.exec geo.fs (geo.place 0) mem' = .error fault ∧ NameFault fault := by
  obtain ⟨mem, created, new⟩ := create_returns geo.small geo.sized geo.inodes disk
  refine ⟨mem, created, fun mem' reached => ?_⟩
  have tidy := reached_tidy ⟨[], .fresh .directory, [], new.directory, new.clean⟩ reached
  constructor
  · obtain ⟨_, _, _, dir, clean⟩ := tidy
    exact accounted_of dir.volume dir.fits clean
  · intro change fits
    have spec := change_spec tidy fits
    cases run : change.exec geo.fs (geo.place 0) mem' with
    | ok result => exact Or.inl ⟨result.2, rfl⟩
    | error fault =>
      obtain ⟨⟨name, same⟩, stopped⟩ := wp_error spec run
      exact Or.inr ⟨name, fault, same, rfl, stopped⟩

/-- The first file takes the first block for its name. -/
theorem blocks_accounted_first : ∃ mem mem', EasyFileSystem.create 32768 1 (fun _ => 0) = .ok (packedDisk.fs, mem) ∧
    Fits packedDisk.fs 32768 (packedDisk.place 0) mem (.create [0x61]) ∧
    (Change.create [0x61]).exec packedDisk.fs (packedDisk.place 0) mem = .ok ((), mem') ∧ Accounted packedDisk.fs 32768 mem' := by
  obtain ⟨mem, created, all⟩ := blocks_accounted packedDisk fun _ => 0
  obtain ⟨mem₁, created₁, new⟩ := create_returns packedDisk.small packedDisk.sized packedDisk.inodes fun _ => 0
  obtain rfl : mem = mem₁ := (Prod.mk.inj (Except.ok.inj (created.symm.trans created₁))).2
  have dir := @Formatted.directory packedDisk mem new
  have root : DiskInode.load mem (packedDisk.place 0).addr = .initialized .directory := dir.volume.stored 0 _ rfl
  have free := freeBlocks_eq dir.volume new.clean
  have fits : Fits packedDisk.fs 32768 (packedDisk.place 0) mem (.create [0x61]) := by
    refine Or.inr ⟨⟨1, by decide, new.inodeBit 1 (by decide)⟩, ?_⟩
    rw [root]
    refine ⟨by decide, fun needed run => ?_⟩
    rw [root, blocksNumNeeded_run (by decide) (by decide)] at run
    obtain rfl := (Prod.mk.inj (Except.ok.inj run)).1
    have capacity : 1 ≤ packedDisk.capacity := by decide
    have none : (owned [Node.fresh .directory]).length = 0 := rfl
    have one : totalOf (blocksOf ((DiskInode.initialized .directory).size + 32)) - totalOf (blocksOf (DiskInode.initialized .directory).size) = 1 := rfl
    have total : packedDisk.total = 32768 := rfl
    rw [one]
    rw [total] at free
    omega
  obtain ⟨mem', run, _⟩ := (Holds.formatted new).create_new (List.not_mem_nil) (show ValidName [0x61] by decide) (by decide) (by decide) (by decide)
  have exec : (Change.create [0x61]).exec packedDisk.fs (packedDisk.place 0) mem = .ok ((), mem') := by
    rw [Change.exec, run_bind run]
    rfl
  exact ⟨mem, mem', created, fits, exec, (all mem' (.step _ .start fits exec)).1⟩

/-- A disk for 17 billion inodes: a block is marked, and no inode has a block. -/
theorem blocks_accounted_wrapped : ∃ fs mem, EasyFileSystem.create 4198402 4194304 (fun _ => 0) = .ok (fs, mem) ∧
    fs.dataAreaStartBlock + 992 < 4198402 ∧ fs.dataBitmap.bit mem 992 = true ∧ ownedBlocks fs mem = [] ∧ ¬Accounted fs 4198402 mem := by
  have sized : Sized 4198402 4194304 := ⟨by decide, by decide⟩
  obtain ⟨mem, run, disk⟩ := create_returns (by decide) sized (by decide) fun _ => 0
  have bit := wrapped_bit disk (by decide) (by decide)
  have none := formatted_ownedBlocks disk (by decide)
  refine ⟨_, mem, run, by decide, bit, none, fun accounted => ?_⟩
  have member := (accounted.marked 992 (by decide)).mp bit
  rw [none] at member
  cases member

end SecureIpc.Guarantees
