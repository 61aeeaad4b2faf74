import SecureIpc.EasyFs.FileMap

/-! The entries of the directory as they stand on the disk, each with the contents of its file. -/

namespace SecureIpc.EasyFs
open Lib

abbrev Listing := List (DirEntry × List UInt8)

namespace Listing

/-- The first file with this name. -/
def find (listing : Listing) (name : Utf8) : Option (DirEntry × List UInt8) :=
  List.find? (fun file => file.1.text == some name) listing

/-- The blocks that the directory and the files take. -/
def usage (listing : Listing) : Nat :=
  totalOf (blocksOf (32 * listing.length)) + (listing.map fun file => totalOf (blocksOf file.2.length)).sum

/-- There are blocks for a file that grows from one size to another. -/
def Fits (geo : Geometry) (listing : Listing) (size newSize : Nat) : Prop :=
  listing.usage + (totalOf (blocksOf newSize) - totalOf (blocksOf size)) ≤ geo.capacity

end Listing

/-- The directory has these entries, and their files these contents. -/
def Listed (geo : Geometry) (listing : Listing) (mem : Memory) : Prop :=
  ∃ root files, Directory geo (listing.map Prod.fst) root files mem ∧ files.map (fun node => node.contents mem) = listing.map Prod.snd

section
variable {geo : Geometry} {listing listing' : Listing} {file : DirEntry × List UInt8} {mem mem' : Memory} {name : Utf8} {i : Nat}

theorem Listing.lookup_eq : lookup (listing.map Prod.fst) name = (listing.find name).map fun file => file.1.inodeNumber := by
  rw [lookup, List.find?_map, Option.map_map]
  rfl

theorem Listing.usage_set {bytes : List UInt8} (found : listing[i]? = some file) :
    Listing.usage (listing.set i (file.1, bytes)) + totalOf (blocksOf file.2.length) = listing.usage + totalOf (blocksOf bytes.length) := by
  have sums := sum_map_set (b := (file.1, bytes)) (fun file => totalOf (blocksOf file.2.length)) found
  dsimp only at sums
  rw [usage, usage, List.length_set]
  omega

/-- A write in two parts needs no more blocks than in one. -/
theorem Listing.Fits.part {size size' newSize : Nat} (fits : listing.Fits geo size newSize) (le : size' ≤ newSize) : listing.Fits geo size size' := by
  have mono := totalOf_mono (BlockTree.blocksOf_mono le)
  unfold Listing.Fits at fits ⊢
  omega

theorem Listing.Fits.rest {bytes : List UInt8} {size newSize : Nat} (fits : listing.Fits geo file.2.length newSize) (found : listing[i]? = some file)
    (grown : bytes.length = max file.2.length size) (le : size ≤ newSize) :
    Listing.Fits geo (listing.set i (file.1, bytes)) bytes.length newSize := by
  have usage := @Listing.usage_set listing file i bytes found
  have mono := totalOf_mono (BlockTree.blocksOf_mono (Nat.le_max_left file.2.length size))
  have mono' := totalOf_mono (BlockTree.blocksOf_mono le)
  unfold Listing.Fits at fits ⊢
  rw [grown] at usage ⊢
  rcases Nat.le_total size file.2.length with short | long
  · rw [Nat.max_eq_left short] at usage ⊢
    omega
  · rw [Nat.max_eq_right long] at mono usage ⊢
    omega

theorem Holds.listed {map : FileMap} (holds : Holds geo map mem) : ∃ listing, Listed geo listing mem ∧
    listing.map (fun file => file.1.text) = map.names.map some ∧ listing.map Prod.snd = map.map Prod.snd := by
  obtain ⟨entries, root, files, rep, _⟩ := holds
  obtain ⟨_, count⟩ := rep.count
  have length : entries.length = (map.map Prod.snd).length := by rw [count, List.length_map]
  have first : (entries.zip (map.map Prod.snd)).map Prod.fst = entries := List.map_fst_zip (Nat.le_of_eq length)
  have second : (entries.zip (map.map Prod.snd)).map Prod.snd = map.map Prod.snd := List.map_snd_zip (Nat.le_of_eq length.symm)
  refine ⟨entries.zip (map.map Prod.snd), ⟨root, files, ?_, ?_⟩, ?_, second⟩
  · rw [first]
    exact rep.dir
  · rw [second]
    exact rep.contents
  · rw [← rep.names, ← congrArg (List.map DirEntry.text) first, List.map_map]
    rfl

namespace Listed

theorem node (listed : Listed geo listing mem) (found : listing[i]? = some file) : ∃ root files node,
    Directory geo (listing.map Prod.fst) root files mem ∧ files.map (fun node => node.contents mem) = listing.map Prod.snd ∧
      files[i]? = some node ∧ node.contents mem = file.2 := by
  obtain ⟨root, files, dir, contents⟩ := listed
  have at' := congrArg (fun list => list[i]?) contents
  simp only [List.getElem?_map, found, Option.map_some] at at'
  obtain ⟨node, here, value⟩ := Option.map_eq_some_iff.mp at'
  exact ⟨root, files, node, dir, contents, here, value⟩

theorem number (listed : Listed geo listing mem) (found : listing[i]? = some file) : file.1.inodeNumber = i + 1 := by
  obtain ⟨root, files, dir, _⟩ := listed
  exact (dir.entry i file.1 (by rw [List.getElem?_map, found]; rfl)).2

theorem position (listed : Listed geo listing mem) (found : listing.find name = some file) :
    ∃ i, listing[i]? = some file ∧ file.1.inodeNumber = i + 1 := by
  obtain ⟨i, here⟩ := List.getElem?_of_mem (List.mem_of_find?_eq_some found)
  exact ⟨i, here, listed.number here⟩

/-! ### The operations -/

theorem find (listed : Listed geo listing mem) : wp ((geo.place 0).find geo.fs name)
    (fun r mem' => mem' = mem ∧ r = (listing.find name).map fun file => geo.place file.1.inodeNumber) (fun _ => True) mem := by
  obtain ⟨root, files, dir, _⟩ := listed
  refine wp_mono dir.find ?_ fun _ _ => trivial
  rintro r mem' ⟨rfl, rfl⟩
  rw [Listing.lookup_eq, Option.map_map]
  exact ⟨rfl, rfl⟩

theorem clear (listed : Listed geo listing mem) (found : listing[i]? = some file) :
    wp ((geo.place (i + 1)).clear geo.fs) (fun _ mem' => Listed geo (listing.set i (file.1, [])) mem') (fun _ => False) mem := by
  obtain ⟨root, files, node, dir, contents, here, _⟩ := listed.node found
  refine wp_mono (clear_spec dir.volume (show (root :: files)[i + 1]? = some node from here)) ?_ fun _ impossible => impossible
  rintro _ mem' ⟨after, touches, _⟩
  obtain ⟨dir', changed⟩ := dir.update here after (touches.mono fun id member => List.mem_append_left _ member)
  refine ⟨root, files.set i (.fresh node.type), ?_, ?_⟩
  · rw [map_fst_set found]
    exact dir'
  · rw [changed, contents, List.map_set]
    rfl

/-- A name that is there stays as it is, and another one is added. -/
theorem create (listed : Listed geo listing mem) : wp ((geo.place 0).create geo.fs name) (fun r mem' =>
    listing.find name ≠ none ∧ r = none ∧ Listed geo listing mem' ∨
      listing.find name = none ∧ r = some (geo.place (listing.length + 1)) ∧ ∃ entry, Listed geo (listing ++ [(entry, [])]) mem')
    (fun _ => True) mem := by
  obtain ⟨root, files, dir, contents⟩ := listed
  have count : files.length = listing.length := by rw [dir.count, List.length_map]
  have kept : ∀ {mem' : Memory}, (∀ (m : Nat) (other : Node), files[m]? = some other → other.contents mem' = other.contents mem) →
      files.map (fun node => node.contents mem') = listing.map Prod.snd := by
    intro mem' same
    rw [← contents]
    apply List.map_congr_left
    intro node member
    obtain ⟨m, here⟩ := List.getElem?_of_mem member
    exact same m node here
  refine wp_mono dir.create ?_ fun _ _ => trivial
  rw [Listing.lookup_eq]
  rintro r mem' (⟨⟨n, known⟩, rfl, dir', keeps⟩ | ⟨new, _, rfl, root', created⟩)
  · obtain ⟨file, found, _⟩ := Option.map_eq_some_iff.mp known
    exact Or.inl ⟨found ▸ Option.some_ne_none file, rfl, root, files, dir', kept keeps.contents⟩
  · refine Or.inr ⟨Option.map_eq_none_iff.mp new, by rw [count], .padded name (files.length + 1), root', files ++ [.fresh .file], ?_, ?_⟩
    · rw [List.map_append]
      exact created.dir
    · rw [List.map_append, List.map_append, kept created.contents]
      rfl

theorem size_le (listed : Listed geo listing mem) (found : listing[i]? = some file) : file.2.length ≤ maxBlocks * 512 := by
  obtain ⟨root, files, node, dir, _, here, value⟩ := listed.node found
  have bound := (dir.volume.sound (i + 1) node here).bound
  rw [← value, Node.contents, Memory.load_length]
  unfold blocksOf at bound
  omega

theorem readAt {offset len : Nat} (listed : Listed geo listing mem) (found : listing[i]? = some file) :
    wp ((geo.place (i + 1)).readAt offset len) (fun bytes mem' => mem' = mem ∧ bytes = slice file.2 offset len)
      (fun _ => ¬offset + len < 2 ^ 64) mem := by
  obtain ⟨root, files, node, dir, _, here, value⟩ := listed.node found
  rw [← value]
  exact readAt_spec dir.volume (show (root :: files)[i + 1]? = some node from here)

/-- A write changes one file, which gets at least as long as the write reaches. -/
theorem writeAt {offset : Nat} {buf : List UInt8} (listed : Listed geo listing mem) (found : listing[i]? = some file) :
    wp ((geo.place (i + 1)).writeAt geo.fs offset buf) (fun written mem' => ∃ bytes, Listed geo (listing.set i (file.1, bytes)) mem' ∧
        bytes.length = max file.2.length ((offset + buf.length) % 2 ^ 32) ∧ written = min (offset + buf.length) bytes.length - offset)
      (fun _ => ¬(buf ≠ [] ∧ offset + buf.length ≤ maxBlocks * 512 ∧ listing.Fits geo file.2.length (offset + buf.length))) mem := by
  obtain ⟨root, files, node, dir, contents, here, value⟩ := listed.node found
  have size : node.size = file.2.length := by rw [← value, Node.contents, Memory.load_length]
  have usage : (owned (root :: files)).length = listing.usage := by
    rw [dir.owned_eq contents, List.length_map, Listing.usage, List.map_map]
    rfl
  refine wp_mono (writeAt_spec dir.volume (show (root :: files)[i + 1]? = some node from here)) ?_ fun _ fails fits => fails ?_
  · rintro written mem' ⟨node', taken, amount, done⟩
    obtain ⟨dir', changed⟩ := dir.update here done.volume done.touches
    have length : (node'.contents mem').length = node'.size := by rw [Node.contents, Memory.load_length]
    refine ⟨node'.contents mem', ⟨root, files.set i node', ?_, ?_⟩, ?_, ?_⟩
    · rw [map_fst_set found]
      exact dir'
    · rw [changed, contents, List.map_set]
    · rw [length, done.size, size]
    · rw [length]
      exact amount
  · rw [Room, usage, size]
    exact fits

/-! ### The disk determines the listing -/

theorem entry_unique {entries entries' : List DirEntry} {root root' : Node} {files files' : List Node} {entry entry' : DirEntry}
    (dir : Directory geo entries root files mem) (dir' : Directory geo entries' root' files' mem) (here : entries[i]? = some entry)
    (here' : entries'[i]? = some entry') : entry = entry' := by
  have inode : root.inode = root'.inode := (dir.volume.stored 0 root rfl).symm.trans (dir'.volume.stored 0 root' rfl)
  have read : wp (Inode.readDirEntry [(geo.place 0).blockId] root.inode i) (fun read _ => read = entry) (fun _ => False) mem :=
    (dir.readDirEntry here).mpr rfl
  rw [inode] at read
  exact ((dir'.readDirEntry here').mp read).symm

theorem contents_unique {nodes nodes' : List Node} {node node' : Node} {n : Nat} (volume : Volume geo nodes mem)
    (volume' : Volume geo nodes' mem) (here : nodes[n]? = some node) (here' : nodes'[n]? = some node') :
    node.contents mem = node'.contents mem := by
  have whole : ∀ {nodes : List Node} {node : Node}, Volume geo nodes mem → nodes[n]? = some node →
      slice (node.contents mem) 0 (maxBlocks * 512) = node.contents mem := by
    intro nodes node volume here
    have bound := (volume.sound n node here).bound
    apply List.take_of_length_le
    rw [List.drop_zero, Node.contents, Memory.load_length]
    unfold blocksOf at bound
    omega
  have fits : 0 + maxBlocks * 512 < 2 ^ 64 := by decide
  obtain ⟨bytes, _, run, _, value⟩ :=
    wp_returns_of (@readAt_spec geo nodes node mem n 0 (maxBlocks * 512) volume here) fun _ fails => fails fits
  have again := (wp_ok (readAt_spec volume' here') run).2
  rw [← whole volume here, ← whole volume' here', ← value, ← again]

theorem unique (listed : Listed geo listing mem) (listed' : Listed geo listing' mem) : listing = listing' := by
  obtain ⟨root, files, dir, contents⟩ := listed
  obtain ⟨root', files', dir', contents'⟩ := listed'
  have size : root.size = root'.size :=
    congrArg DiskInode.size ((dir.volume.stored 0 root rfl).symm.trans (dir'.volume.stored 0 root' rfl))
  have length : listing.length = listing'.length := by
    rw [dir.size, dir'.size, List.length_map, List.length_map] at size
    omega
  apply List.ext_getElem length
  intro i inside inside'
  have here := List.getElem?_eq_getElem inside
  have here' := List.getElem?_eq_getElem inside'
  obtain ⟨_, _, node, dir, _, found, value⟩ := node ⟨root, files, dir, contents⟩ here
  obtain ⟨_, _, node', dir', _, found', value'⟩ := Listed.node ⟨root', files', dir', contents'⟩ here'
  refine Prod.ext (@entry_unique geo mem i _ _ _ _ _ _ _ _ dir dir' ?_ ?_) ?_
  · rw [List.getElem?_map, here]
    rfl
  · rw [List.getElem?_map, here']
    rfl
  · rw [← value, ← value']
    exact @contents_unique geo mem _ _ node node' (i + 1) dir.volume dir'.volume found found'

end Listed

end

end SecureIpc.EasyFs
