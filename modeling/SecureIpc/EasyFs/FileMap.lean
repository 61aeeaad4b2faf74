import SecureIpc.EasyFs.Creation

/-! What a disk is for: files by name, each with a byte string. -/

namespace SecureIpc.EasyFs
open Lib

/-- The files with their contents, in the order of their creation. -/
abbrev FileMap := List (Utf8 × List UInt8)

namespace FileMap

def names (map : FileMap) : List Utf8 := map.map Prod.fst

def index (map : FileMap) (name : Utf8) : Option Nat := map.names.findIdx? fun other => other == name

def usage (map : FileMap) : Nat := totalOf (blocksOf (32 * map.length)) + (map.map fun file => totalOf (blocksOf file.2.length)).sum

end FileMap

def ValidName (name : Utf8) : Prop := 0 ∉ name ∧ name.length ≤ 27 ∧ isUtf8 name = true

instance (name : Utf8) : Decidable (ValidName name) := inferInstanceAs (Decidable (_ ∧ _))

structure FilesOn (geo : Geometry) (map : FileMap) (entries : List DirEntry) (root : Node) (files : List Node) (mem : Memory) : Prop where
  dir : Directory geo entries root files mem
  names : entries.map DirEntry.text = map.names.map some
  contents : files.map (fun node => node.contents mem) = map.map Prod.snd
  distinct : map.names.Nodup

/-- The disk holds the files and is otherwise clean. -/
def Holds (geo : Geometry) (map : FileMap) (mem : Memory) : Prop :=
  ∃ entries root files, FilesOn geo map entries root files mem ∧ Clean geo (root :: files) mem

section
variable {geo : Geometry} {map : FileMap} {entries : List DirEntry} {root node node' : Node} {files : List Node} {mem mem' : Memory}
  {name : Utf8} {file : Utf8 × List UInt8} {contents buf : List UInt8} {i offset len : Nat}

theorem map_fst_set {α β : Type} {list : List (α × β)} {pair : α × β} {b : β} (found : list[i]? = some pair) :
    (list.set i (pair.1, b)).map Prod.fst = list.map Prod.fst := by
  obtain ⟨inside, rfl⟩ := List.getElem?_eq_some_iff.mp found
  have inside' : i < (list.map Prod.fst).length := by rwa [List.length_map]
  have same : (list.map Prod.fst)[i] = list[i].1 := List.getElem_map _
  rw [List.map_set, ← same, List.set_getElem_self]

theorem FileMap.index_none : map.index name = none ↔ name ∉ map.names := by
  rw [index, List.findIdx?_eq_none_iff]
  constructor
  · intro different member
    simpa using different name member
  · intro absent other member
    rw [beq_eq_false_iff_ne]
    rintro rfl
    exact absent member

theorem sum_map_set {α : Type} {list : List α} {a b : α} (size : α → Nat) (found : list[i]? = some a) :
    ((list.set i b).map size).sum + size a = (list.map size).sum + size b := by
  induction list generalizing i with
  | nil => cases found
  | cons first rest ih =>
    cases i with
    | zero =>
      obtain rfl : first = a := Option.some.inj found
      simp only [List.set_cons_zero, List.map_cons, List.sum_cons]
      omega
    | succ i =>
      have later := @ih i found
      simp only [List.set_cons_succ, List.map_cons, List.sum_cons] at later ⊢
      omega

theorem FileMap.usage_set (found : map[i]? = some file) : FileMap.usage (map.set i (file.1, contents)) + totalOf (blocksOf file.2.length) =
    map.usage + totalOf (blocksOf contents.length) := by
  have sums := sum_map_set (b := (file.1, contents)) (fun file => totalOf (blocksOf file.2.length)) found
  dsimp only at sums
  rw [usage, usage, List.length_set]
  omega

/-- The blocks in use are those of the directory and of its files. -/
theorem Directory.owned_eq {all : List (List UInt8)} (dir : Directory geo entries root files mem)
    (contents : files.map (fun node => node.contents mem) = all) : (owned (root :: files)).length =
      totalOf (blocksOf (32 * entries.length)) + (all.map fun bytes => totalOf (blocksOf bytes.length)).sum := by
  have sizes : files.map (fun node => totalOf (blocksOf node.size)) = all.map fun bytes => totalOf (blocksOf bytes.length) := by
    rw [← contents, List.map_map]
    apply List.map_congr_left
    intro node _
    rw [Function.comp_apply, Node.contents, Memory.load_length]
  rw [dir.volume.owned_length, List.map_cons, List.sum_cons, sizes, dir.size]

/-- A file is changed: the entries and the contents of the other files stay. -/
theorem Directory.update (dir : Directory geo entries root files mem) (here : files[i]? = some node)
    (after : Volume geo ((root :: files).set (i + 1) node') mem') (touches : Touches geo (i + 1) (node.tree.ids ++ node'.tree.ids) mem mem') :
    Directory geo entries root (files.set i node') mem' ∧
      (files.set i node').map (fun node => node.contents mem') = (files.map fun node => node.contents mem).set i (node'.contents mem') := by
  have inNodes : (root :: files)[i + 1]? = some node := here
  have kept : ∀ m other, (root :: files)[m]? = some other → m ≠ i + 1 → other.contents mem' = other.contents mem := fun m other at' different =>
    contents_kept dir.volume inNodes after touches at' different
  refine ⟨⟨after, ?_, dir.type, ?_, dir.entry⟩, ?_⟩
  · rw [List.length_set]
    exact dir.count
  · rw [kept 0 root rfl (by omega)]
    exact dir.contents
  · rw [List.map_set]
    apply List.ext_getElem?
    intro j
    simp only [List.getElem?_set, List.length_map]
    by_cases at' : i = j
    · rw [if_pos at', if_pos at']
    · rw [if_neg at', if_neg at', List.getElem?_map, List.getElem?_map]
      cases other : files[j]? with
      | none => rfl
      | some other' =>
        have inNodes' : (root :: files)[j + 1]? = some other' := other
        rw [Option.map_some, Option.map_some, kept (j + 1) other' inNodes' (by omega)]

namespace FilesOn

theorem count (rep : FilesOn geo map entries root files mem) : files.length = map.length ∧ entries.length = map.length := by
  have length := congrArg List.length rep.contents
  rw [List.length_map, List.length_map] at length
  exact ⟨length, rep.dir.count ▸ length⟩

theorem readable (rep : FilesOn geo map entries root files mem) : Readable entries := by
  intro entry member
  have text : entry.text ∈ map.names.map some := rep.names ▸ List.mem_map_of_mem member
  obtain ⟨name, _, same⟩ := List.mem_map.mp text
  rw [← same]
  rfl

theorem lookup_eq (rep : FilesOn geo map entries root files mem) : lookup entries name = (map.index name).map (· + 1) := by
  have texts : ∀ j (inside : j < entries.length), ∃ name', map.names[j]? = some name' ∧ entries[j].text = some name' := by
    intro j inside
    have at' := congrArg (fun list => list[j]?) rep.names
    simp only [List.getElem?_map, List.getElem?_eq_getElem inside, Option.map_some] at at'
    cases found : map.names[j]? with
    | none => simp [found] at at'
    | some name' =>
      rw [found, Option.map_some] at at'
      exact ⟨name', rfl, Option.some.inj at'⟩
  have length : map.names.length = entries.length := by rw [FileMap.names, List.length_map, rep.count.2]
  cases position : map.index name with
  | none =>
    rw [lookup, List.find?_eq_none.mpr, Option.map_none, Option.map_none]
    intro entry member same
    obtain ⟨j, inside, rfl⟩ := List.getElem_of_mem member
    obtain ⟨name', found, text⟩ := texts j inside
    rw [text] at same
    have equal : name' = name := by simpa using same
    exact FileMap.index_none.mp position (equal ▸ List.mem_of_getElem? found)
  | some j =>
    obtain ⟨inside, here, before⟩ := List.findIdx?_eq_some_iff_getElem.mp position
    have bound : j < entries.length := by omega
    have first : entries.find? (fun entry => entry.text == some name) = some entries[j] := by
      rw [List.find?_eq_some_iff_getElem]
      obtain ⟨name', found, text⟩ := texts j bound
      rw [List.getElem?_eq_getElem inside, Option.some.injEq] at found
      refine ⟨by simpa [text, ← found] using here, j, bound, rfl, fun k earlier => ?_⟩
      obtain ⟨other, found', text'⟩ := texts k (by omega)
      rw [List.getElem?_eq_getElem (by omega), Option.some.injEq] at found'
      simpa [text', ← found'] using before k earlier
    rw [lookup, first, Option.map_some, Option.map_some, (rep.dir.entry j _ (List.getElem?_eq_getElem bound)).2]

theorem node_of (rep : FilesOn geo map entries root files mem) (found : map[i]? = some file) :
    ∃ node, files[i]? = some node ∧ node.contents mem = file.2 ∧ node.size = file.2.length := by
  have at' := congrArg (fun list => list[i]?) rep.contents
  simp only [List.getElem?_map, found, Option.map_some] at at'
  obtain ⟨node, here, contents⟩ := Option.map_eq_some_iff.mp at'
  refine ⟨node, here, contents, ?_⟩
  rw [← contents, Node.contents, Memory.load_length]

theorem usage (rep : FilesOn geo map entries root files mem) : (owned (root :: files)).length = map.usage := by
  rw [rep.dir.owned_eq rep.contents, rep.count.2, FileMap.usage, List.map_map]
  rfl

theorem update (rep : FilesOn geo map entries root files mem) (here : files[i]? = some node) (found : map[i]? = some file)
    (after : Volume geo ((root :: files).set (i + 1) node') mem') (touches : Touches geo (i + 1) (node.tree.ids ++ node'.tree.ids) mem mem')
    (value : node'.contents mem' = contents) : FilesOn geo (map.set i (file.1, contents)) entries root (files.set i node') mem' := by
  obtain ⟨dir, changed⟩ := rep.dir.update here after touches
  have same : FileMap.names (map.set i (file.1, contents)) = map.names := map_fst_set found
  refine ⟨dir, ?_, ?_, ?_⟩
  · rw [same]
    exact rep.names
  · rw [changed, rep.contents, value, List.map_set]
  · rw [same]
    exact rep.distinct

end FilesOn

/-! ### The operations -/

namespace Holds

theorem formatted (disk : Formatted geo.total geo.ib mem) : Holds geo [] mem :=
  ⟨[], .fresh .directory, [], ⟨disk.directory, rfl, rfl, List.nodup_nil⟩, disk.clean⟩

theorem find (holds : Holds geo map mem) :
    (geo.place 0).find geo.fs name mem = .ok ((map.index name).map fun i => geo.place (i + 1), mem) := by
  obtain ⟨entries, root, files, rep, _⟩ := holds
  obtain ⟨r, mem', run, rfl, rfl⟩ := wp_returns_of (@Directory.find geo entries root files mem name rep.dir) fun _ fails => fails.1 rep.readable
  rw [run, rep.lookup_eq, Option.map_map]
  rfl

theorem ls (holds : Holds geo map mem) : (geo.place 0).ls mem = .ok (map.names, mem) := by
  obtain ⟨entries, root, files, rep, _⟩ := holds
  obtain ⟨names, mem', run, rfl, listed⟩ := wp_returns_of rep.dir.ls fun _ fails => fails.1 rep.readable
  rw [rep.names] at listed
  rw [run, List.map_injective_iff.mpr (Option.some_injective _) listed]

/-- A name that is there is not made again. -/
theorem create_old (holds : Holds geo map mem) (present : name ∈ map.names) :
    ∃ mem', (geo.place 0).create geo.fs name mem = .ok (none, mem') ∧ Holds geo map mem' := by
  obtain ⟨entries, root, files, rep, clean⟩ := holds
  have known : lookup entries name ≠ none := by
    rw [rep.lookup_eq, Ne, Option.map_eq_none_iff, FileMap.index_none, not_not]
    exact present
  have spec := wp_mono (@Directory.create geo entries root files mem name rep.dir) (fun _ _ post => post) fun _ fails => by
    rcases fails with ⟨unread | ⟨new, _⟩, _⟩ | ⟨new, _⟩
    · exact unread rep.readable
    · exact known new
    · exact known new
  obtain ⟨r, mem', run, ⟨_, rfl, dir, keeps⟩ | ⟨new, _⟩⟩ := wp_returns spec
  · refine ⟨mem', run, entries, root, files, ⟨dir, rep.names, ?_, rep.distinct⟩, keeps.clean clean⟩
    rw [← rep.contents]
    apply List.map_congr_left
    intro node member
    obtain ⟨m, found⟩ := List.getElem?_of_mem member
    exact keeps.contents m node found
  · exact absurd new known

/-- A new file is empty and stands at the end. -/
theorem create_new (holds : Holds geo map mem) (new : name ∉ map.names) (valid : ValidName name) (inodes : map.length + 1 < geo.ib * 4096)
    (limit : 32 * (map.length + 1) ≤ maxBlocks * 512) (room : FileMap.usage (map ++ [(name, [])]) ≤ geo.capacity) :
    ∃ mem', (geo.place 0).create geo.fs name mem = .ok (some (geo.place (map.length + 1)), mem') ∧ Holds geo (map ++ [(name, [])]) mem' := by
  obtain ⟨entries, root, files, rep, clean⟩ := holds
  obtain ⟨fileCount, entryCount⟩ := rep.count
  have unknown : lookup entries name = none := by
    rw [rep.lookup_eq, Option.map_eq_none_iff, FileMap.index_none]
    exact new
  have roomy : Room geo (root :: files) root (32 * (entries.length + 1)) := by
    have mono := totalOf_mono (BlockTree.blocksOf_mono (Nat.mul_le_mul_left 32 (Nat.le_add_right map.length 1)))
    have before : map.usage = totalOf (blocksOf (32 * map.length)) + (map.map fun file => totalOf (blocksOf file.2.length)).sum := rfl
    have after : FileMap.usage (map ++ [(name, [])]) =
        totalOf (blocksOf (32 * (map.length + 1))) + (map.map fun file => totalOf (blocksOf file.2.length)).sum := by
      have empty : totalOf (blocksOf 0) = 0 := rfl
      simp only [FileMap.usage, List.length_append, List.length_singleton, List.map_append, List.map_singleton, List.sum_append, List.sum_singleton,
        List.length_nil, empty, Nat.add_zero]
    rw [Room, rep.usage, rep.dir.size, entryCount]
    omega
  have space : Space geo entries root files := ⟨by rwa [fileCount], by rwa [entryCount], roomy⟩
  have spec := wp_mono (@Directory.create geo entries root files mem name rep.dir) (fun _ _ post => post) fun _ fails => by
    rcases fails with ⟨unread | ⟨_, long⟩, _⟩ | ⟨_, _, full⟩
    · exact unread rep.readable
    · exact long (Nat.le_succ_of_le valid.2.1)
    · exact full space
  obtain ⟨r, mem', run, ⟨⟨n, known⟩, _⟩ | ⟨_, _, rfl, root', created⟩⟩ := wp_returns spec
  · rw [unknown] at known
    cases known
  · rw [fileCount] at run
    refine ⟨mem', run, _, root', _, ⟨created.dir, ?_, ?_, ?_⟩, created.clean roomy clean⟩
    · simp only [List.map_append, List.map_cons, List.map_nil, FileMap.names, rep.names, DirEntry.padded_text valid.1 valid.2.1 valid.2.2]
    · rw [List.map_append, List.map_append, ← rep.contents]
      congr 1
      apply List.map_congr_left
      intro node member
      obtain ⟨m, found⟩ := List.getElem?_of_mem member
      exact created.contents m node found
    · rw [FileMap.names, List.map_append, List.nodup_append]
      refine ⟨rep.distinct, by simp, fun old member other added => ?_⟩
      obtain rfl : other = name := List.mem_singleton.mp added
      rintro rfl
      exact new member

/-- A file is read as its byte string. -/
theorem readAt (holds : Holds geo map mem) (found : map[i]? = some file) (fits : offset + len < 2 ^ 64) :
    (geo.place (i + 1)).readAt offset len mem = .ok (slice file.2 offset len, mem) := by
  obtain ⟨entries, root, files, rep, _⟩ := holds
  obtain ⟨node, here, value, _⟩ := rep.node_of found
  have inNodes : (root :: files)[i + 1]? = some node := here
  obtain ⟨bytes, mem', run, rfl, rfl⟩ :=
    wp_returns_of (@readAt_spec geo _ node mem (i + 1) offset len rep.dir.volume inNodes) fun _ fails => fails fits
  rw [run, value]

/-- A file is written as its byte string. -/
theorem writeAt (holds : Holds geo map mem) (found : map[i]? = some file) (some : buf ≠ []) (limit : offset + buf.length ≤ maxBlocks * 512)
    (room : FileMap.usage (map.set i (file.1, overwrite file.2 offset buf)) ≤ geo.capacity) :
    ∃ mem', (geo.place (i + 1)).writeAt geo.fs offset buf mem = .ok (buf.length, mem') ∧
      Holds geo (map.set i (file.1, overwrite file.2 offset buf)) mem' := by
  obtain ⟨entries, root, files, rep, clean⟩ := holds
  obtain ⟨node, here, value, size⟩ := rep.node_of found
  have inNodes : (root :: files)[i + 1]? = Option.some node := here
  have whole : (offset + buf.length) % 2 ^ 32 = offset + buf.length := by
    unfold maxBlocks at limit
    omega
  have roomy : Room geo (root :: files) node (offset + buf.length) := by
    have change := @FileMap.usage_set map file (overwrite file.2 offset buf) i found
    have mono := totalOf_mono (BlockTree.blocksOf_mono (Nat.le_max_left file.2.length (offset + buf.length)))
    have mono' := totalOf_mono (BlockTree.blocksOf_mono (Nat.le_max_right file.2.length (offset + buf.length)))
    rw [overwrite_length] at change
    rw [Room, rep.usage, size]
    omega
  obtain ⟨written, mem', run, node', taken, amount, done⟩ :=
    wp_returns_of (@writeAt_spec geo _ node mem (i + 1) offset buf rep.dir.volume inNodes) fun _ fails => fails ⟨some, limit, roomy⟩
  have all : written = buf.length := by
    rw [amount, done.size, whole]
    omega
  subst all
  rw [whole, List.take_length] at done
  refine ⟨mem', run, entries, root, files.set i node', rep.update here found done.volume done.touches ?_, done.clean inNodes rep.dir.volume clean roomy rfl⟩
  rw [done.contents inNodes rep.dir.volume clean roomy rfl, value]

theorem clear (holds : Holds geo map mem) (found : map[i]? = some file) :
    ∃ mem', (geo.place (i + 1)).clear geo.fs mem = .ok ((), mem') ∧ Holds geo (map.set i (file.1, [])) mem' := by
  obtain ⟨entries, root, files, rep, clean⟩ := holds
  obtain ⟨node, here, value, size⟩ := rep.node_of found
  have inNodes : (root :: files)[i + 1]? = some node := here
  obtain ⟨_, mem', run, after, touches, zero⟩ := wp_returns (clear_spec rep.dir.volume inNodes)
  refine ⟨mem', run, entries, root, files.set i (.fresh node.type), rep.update here found after ?_ rfl, clean.cleared rep.dir.volume inNodes after touches zero⟩
  exact touches.mono fun id member => List.mem_append_left _ member

end Holds

end

end SecureIpc.EasyFs
