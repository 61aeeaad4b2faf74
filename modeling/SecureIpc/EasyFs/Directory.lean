import SecureIpc.EasyFs.Clean

/-! The root directory: its contents are entries of 32 bytes, the `i`-th for inode `i + 1`. -/

namespace SecureIpc.EasyFs
open Lib

/-- The panics of a name that does not fit its entry or cannot be read back. -/
def NameFault (fault : FsFault) : Prop := fault = .index ∨ fault = .notUtf8

namespace DirEntry

/-- The name of an entry, if it has a terminator and is text. -/
def text (self : DirEntry) : Option Utf8 :=
  match self.name.findIdx? fun b => b == 0 with
  | none => none
  | some len => if isUtf8 (self.name.take len) then some (self.name.take len) else none

def padded (name : Utf8) (inodeNumber : Nat) : DirEntry := ⟨name ++ List.replicate (28 - name.length) 0, inodeNumber⟩

section
variable {self : DirEntry} {name : Utf8} {number : Nat} {mem : Memory}

theorem decodeName_spec : wp self.decodeName (fun name mem' => mem' = mem ∧ self.text = some name)
    (fun fault => self.text = none ∧ NameFault fault) mem := by
  unfold decodeName text
  cases self.name.findIdx? fun b => b == 0 with
  | none => exact ⟨rfl, Or.inl rfl⟩
  | some len =>
    by_cases valid : isUtf8 (self.name.take len) = true
    · simp [valid]
    · simp [valid, NameFault]

theorem new_spec : wp (DirEntry.new name number) (fun entry mem' => mem' = mem ∧ name.length ≤ 28 ∧ entry = padded name number)
    (fun fault => ¬name.length ≤ 28 ∧ NameFault fault) mem := by
  have limit : nameLengthLimit + 1 = 28 := rfl
  unfold DirEntry.new
  rw [limit]
  by_cases fits : name.length ≤ 28
  · rw [if_pos fits]
    exact ⟨rfl, fits, rfl⟩
  · rw [if_neg fits]
    exact ⟨fits, Or.inl rfl⟩

theorem padded_length (fits : name.length ≤ 28) : (padded name number).name.length = 28 := by
  simp only [padded, List.length_append, List.length_replicate]
  omega

theorem asBytes_length (width : self.name.length = 28) : self.asBytes.length = 32 := by
  simp [asBytes, width]

theorem ofBytes_asBytes (width : self.name.length = 28) (small : self.inodeNumber < 2 ^ 32) : ofBytes self.asBytes = self := by
  have limit : nameLengthLimit + 1 = 28 := rfl
  cases self with
  | mk name number =>
    simp only at width small
    rw [ofBytes, asBytes, limit, List.take_left' width, List.drop_left' width, Lib.ofBytes_toBytes]
    exact congrArg (DirEntry.mk name) (Nat.mod_eq_of_lt small)

/-- A name without a zero byte stands before the first one of its entry. -/
theorem padded_terminator (free : 0 ∉ name) :
    (padded name number).name.findIdx? (fun b => b == 0) = if name.length < 28 then some name.length else none := by
  have inName : name.findIdx? (fun b => b == 0) = none := by
    rw [List.findIdx?_eq_none_iff]
    intro b member
    rw [beq_eq_false_iff_ne]
    rintro rfl
    exact free member
  rw [padded, List.findIdx?_append, inName, Option.none_or]
  by_cases short : name.length < 28
  · obtain ⟨k, more⟩ : ∃ k, 28 - name.length = k + 1 := ⟨28 - name.length - 1, by omega⟩
    rw [if_pos short, more, List.replicate_succ, List.findIdx?_cons]
    simp
  · rw [if_neg short, show 28 - name.length = 0 by omega]
    rfl

theorem padded_text (free : 0 ∉ name) (short : name.length ≤ 27) (valid : isUtf8 name = true) : (padded name number).text = some name := by
  have taken : (padded name number).name.take name.length = name := List.take_left
  rw [text, padded_terminator free, if_pos (by omega)]
  simp only [taken, valid, if_true]

theorem padded_unreadable (free : 0 ∉ name) (long : 28 ≤ name.length) : (padded name number).text = none := by
  rw [text, padded_terminator free, if_neg (by omega)]

end

end DirEntry

/-- The number of the first entry with this name. -/
def lookup (entries : List DirEntry) (name : Utf8) : Option Nat :=
  (entries.find? fun entry => entry.text == some name).map DirEntry.inodeNumber

def Readable (entries : List DirEntry) : Prop := ∀ entry ∈ entries, entry.text.isSome = true

/-- The disk holds a root directory with these entries, and the files they name. -/
structure Directory (geo : Geometry) (entries : List DirEntry) (root : Node) (files : List Node) (mem : Memory) : Prop where
  volume : Volume geo (root :: files) mem
  count : files.length = entries.length
  type : root.type = .directory
  contents : root.contents mem = entries.flatMap DirEntry.asBytes
  entry : ∀ (i : Nat) (entry : DirEntry), entries[i]? = some entry → entry.name.length = 28 ∧ entry.inodeNumber = i + 1

section
variable {geo : Geometry} {entries : List DirEntry} {root root' : Node} {files : List Node} {mem mem' : Memory} {name : Utf8} {i n : Nat}

namespace Directory

theorem width (dir : Directory geo entries root files mem) : ∀ entry ∈ entries, entry.asBytes.length = 32 := by
  intro entry member
  obtain ⟨i, found⟩ := List.getElem?_of_mem member
  exact DirEntry.asBytes_length (dir.entry i entry found).1

theorem size (dir : Directory geo entries root files mem) : root.size = 32 * entries.length := by
  have length := congrArg List.length dir.contents
  rw [Node.contents, Memory.load_length, flatMap_length dir.width] at length
  exact length

theorem bound (dir : Directory geo entries root files mem) : 32 * entries.length ≤ maxBlocks * 512 := by
  have bound := (dir.volume.sound 0 root rfl).bound
  rw [dir.size] at bound
  unfold blocksOf at bound
  omega

theorem few (dir : Directory geo entries root files mem) : entries.length ≤ 264640 := by
  have bound := dir.bound
  unfold maxBlocks at bound
  omega

/-- The numbers of the inodes are `u32`s. -/
theorem fits (dir : Directory geo entries root files mem) : (root :: files).length < 2 ^ 32 := by
  have few := dir.few
  rw [List.length_cons, dir.count]
  omega

/-! ### Reading the entries -/

theorem readDirEntry {entry : DirEntry} {Q : DirEntry → Memory → Prop} {E : FsFault → Prop} (dir : Directory geo entries root files mem)
    (found : entries[i]? = some entry) : wp (Inode.readDirEntry [(geo.place 0).blockId] root.inode i) Q E mem ↔ Q entry mem := by
  have few := dir.few
  have inside := (List.getElem?_eq_some_iff.mp found).1
  have working := Working.start dir.volume (show (root :: files)[0]? = some root from rfl)
  obtain ⟨links, _, count, bound⟩ := working.sound
  obtain ⟨width, number⟩ := dir.entry i entry found
  have bytes : slice ((root.tree.view mem).load 0 root.size) (32 * i) 32 = entry.asBytes := by
    rw [show (root.tree.view mem).load 0 root.size = root.contents mem from rfl, dir.contents]
    exact slice_flatMap dir.width found
  have size : direntSz = 32 := rfl
  rw [Inode.readDirEntry, size, wp_bind, Node.inode, BlockTree.readAt_spec links (count ▸ bound) (working.free rfl dir.volume) (by simp) count
    (by omega), bytes, if_pos (DirEntry.asBytes_length width), wp_pure, DirEntry.ofBytes_asBytes width (by omega)]

/-- The scan finds the first entry with the name; it can pass over all entries only if they are readable. -/
theorem scanEntries {count : Nat} (dir : Directory geo entries root files mem) (whole : i + count = entries.length) :
    wp (Inode.scanEntries [(geo.place 0).blockId] root.inode name count i)
      (fun r mem' => mem' = mem ∧ r = lookup (entries.drop i) name ∧ (r = none → Readable (entries.drop i)))
      (fun fault => ¬Readable entries ∧ NameFault fault) mem := by
  induction count generalizing i with
  | zero =>
    rw [List.drop_of_length_le (by omega)]
    exact ⟨rfl, rfl, fun _ _ member => absurd member List.not_mem_nil⟩
  | succ count ih =>
    have inside : i < entries.length := by omega
    have found := List.getElem?_eq_getElem inside
    rw [Inode.scanEntries, wp_bind, dir.readDirEntry found, wp_bind, List.drop_eq_getElem_cons inside]
    refine wp_mono DirEntry.decodeName_spec ?_ fun fault unread => ⟨fun readable => ?_, unread.2⟩
    · rintro name' _ ⟨rfl, text⟩
      rw [lookup, List.find?_cons]
      by_cases same : name' = name
      · rw [if_pos same, text, same]
        simp
      · rw [if_neg same, text]
        have other : (some name' == some name) = false := by simpa using same
        rw [other]
        refine wp_mono (ih (by omega)) ?_ fun _ fails => fails
        rintro r _ ⟨rfl, result, rest⟩
        refine ⟨rfl, result, fun none => List.forall_mem_cons.mpr ⟨?_, rest none⟩⟩
        rw [text]
        rfl
    · have readable := readable _ (List.getElem_mem inside)
      rw [unread.1] at readable
      cases readable

theorem findInodeId (dir : Directory geo entries root files mem) : wp (Inode.findInodeId [(geo.place 0).blockId] name root.inode)
    (fun r mem' => mem' = mem ∧ r = lookup entries name ∧ (r = none → Readable entries)) (fun fault => ¬Readable entries ∧ NameFault fault) mem := by
  have directory : root.inode.isDir = true := by
    rw [DiskInode.isDir, Node.inode, BlockTree.inode, dir.type]
    rfl
  have count : root.inode.size / direntSz = entries.length := by
    rw [show root.inode.size = root.size from rfl, dir.size, show direntSz = 32 from rfl]
    omega
  have scan := @scanEntries geo entries root files mem name 0 entries.length dir (Nat.zero_add _)
  rw [List.drop_zero] at scan
  rwa [Inode.findInodeId, if_pos directory, count]

theorem lookup_inside (dir : Directory geo entries root files mem) (found : lookup entries name = some n) : 0 < n ∧ n ≤ files.length := by
  obtain ⟨entry, present, rfl⟩ := Option.map_eq_some_iff.mp found
  obtain ⟨i, at'⟩ := List.getElem?_of_mem (List.mem_of_find?_eq_some present)
  have number := (dir.entry i entry at').2
  have inside := (List.getElem?_eq_some_iff.mp at').1
  have count := dir.count
  omega

theorem ofId {Q : Inode → Memory → Prop} {E : FsFault → Prop} (small : n < 2 ^ 32) :
    wp (Inode.ofId geo.fs n) Q E mem ↔ Q (geo.place n) mem := by
  have areas := geo.areas
  have total := geo.small
  rw [Inode.ofId, wp_bind, getDiskInodePos_spec small (by rw [geo.inodeAreaStart_eq]; omega)]
  exact Iff.rfl

/-- `find` returns the file of the first entry with the name. -/
theorem find (dir : Directory geo entries root files mem) : wp ((geo.place 0).find geo.fs name)
    (fun r mem' => mem' = mem ∧ r = (lookup entries name).map geo.place) (fun fault => ¬Readable entries ∧ NameFault fault) mem := by
  rw [Inode.find, readDiskInode_rule dir.volume (show (root :: files)[0]? = some root from rfl), wp_bind]
  refine wp_mono dir.findInodeId ?_ fun _ fails => fails
  rintro r _ ⟨rfl, rfl, _⟩
  cases found : lookup entries name with
  | none => exact ⟨rfl, rfl⟩
  | some n =>
    have fits := dir.fits
    have inside := dir.lookup_inside found
    rw [List.length_cons] at fits
    simp only [wp_bind, ofId (show n < 2 ^ 32 by omega), wp_pure, Option.map_some, and_self]

theorem listEntries {count : Nat} (dir : Directory geo entries root files mem) (whole : i + count = entries.length) :
    wp (Inode.listEntries [(geo.place 0).blockId] root.inode count i)
      (fun names mem' => mem' = mem ∧ names.map some = (entries.drop i).map DirEntry.text) (fun fault => ¬Readable entries ∧ NameFault fault) mem := by
  induction count generalizing i with
  | zero =>
    refine ⟨rfl, ?_⟩
    rw [List.drop_of_length_le (by omega)]
    rfl
  | succ count ih =>
    have inside : i < entries.length := by omega
    have found := List.getElem?_eq_getElem inside
    rw [Inode.listEntries, wp_bind, dir.readDirEntry found, wp_bind, List.drop_eq_getElem_cons inside]
    refine wp_mono DirEntry.decodeName_spec ?_ fun fault unread => ⟨fun readable => ?_, unread.2⟩
    · rintro name' _ ⟨rfl, text⟩
      rw [wp_bind]
      refine wp_mono (ih (by omega)) ?_ fun _ fails => fails
      rintro names _ ⟨rfl, rest⟩
      exact ⟨rfl, by rw [List.map_cons, List.map_cons, rest, text]⟩
    · have readable := readable _ (List.getElem_mem inside)
      rw [unread.1] at readable
      cases readable

theorem ls (dir : Directory geo entries root files mem) : wp (geo.place 0).ls
    (fun names mem' => mem' = mem ∧ names.map some = entries.map DirEntry.text) (fun fault => ¬Readable entries ∧ NameFault fault) mem := by
  have count : root.inode.size / direntSz = entries.length := by
    rw [show root.inode.size = root.size from rfl, dir.size, show direntSz = 32 from rfl]
    omega
  have list := @listEntries geo entries root files mem 0 entries.length dir (Nat.zero_add _)
  rw [List.drop_zero] at list
  rwa [Inode.ls, readDiskInode_rule dir.volume (show (root :: files)[0]? = some root from rfl), count]

end Directory

end

end SecureIpc.EasyFs
