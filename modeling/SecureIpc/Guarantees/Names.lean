import Mathlib.Data.List.Dedup
import Mathlib.Data.List.Perm.Subperm
import SecureIpc.Guarantees.Files

/-!
Names of the root directory. An entry has 28 bytes and its name ends before the first zero, so it can give back
names of at most 27 bytes: longer ones stop the directory from being read.
-/

namespace SecureIpc.Guarantees
open Lib EasyFs

inductive DirCall where
  | create (name : Utf8)
  | find (name : Utf8)
  | ls
  deriving DecidableEq, Repr

namespace DirCall

def exec (fs : EasyFileSystem) (root : Inode) : DirCall → FsM FileReply
  | .create name => return .file (← root.create fs name)
  | .find name => return .file (← root.find fs name)
  | .ls => return .names (← root.ls)

def creates : DirCall → Option Utf8
  | .create name => some name
  | .find _ => none
  | .ls => none

end DirCall

def createdNames (calls : List DirCall) : List Utf8 := calls.filterMap DirCall.creates

def fileOf (geo : Geometry) (names : List Utf8) (name : Utf8) : Option Inode :=
  (names.findIdx? fun other => other == name).map fun i => geo.place (i + 1)

def nameStep (geo : Geometry) (names : List Utf8) : DirCall → FileReply × List Utf8
  | .create name => if names.contains name then (.file none, names) else (.file (some (geo.place (names.length + 1))), names ++ [name])
  | .find name => (.file (fileOf geo names name), names)
  | .ls => (.names names, names)

/-- The disk has the inodes and the blocks for a directory of `n` files. -/
def Enough (geo : Geometry) (n : Nat) : Prop :=
  n < geo.ib * 4096 ∧ 32 * n ≤ maxBlocks * 512 ∧ totalOf (blocksOf (32 * n)) ≤ geo.capacity

def nameAllowed (geo : Geometry) (names : List Utf8) (call : DirCall) : Prop :=
  ∀ name, call.creates = some name → ValidName name ∧ (name ∉ names → Enough geo (names.length + 1))

def nameSpec (geo : Geometry) : Spec DirCall FileReply (List Utf8) where
  allowed := nameAllowed geo
  step := nameStep geo

/-- The calls return what they return on the list of names, and so do `find` and `ls` after them. -/
def Tolerates (geo : Geometry) (calls : List DirCall) (mem : Memory) : Prop :=
  ∃ mem', execAll (DirCall.exec geo.fs (geo.place 0)) calls mem = .ok (((nameSpec geo).run [] calls).1, mem') ∧
    (∀ name, (geo.place 0).find geo.fs name mem' = .ok (fileOf geo ((nameSpec geo).run [] calls).2 name, mem')) ∧
    (geo.place 0).ls mem' = .ok (((nameSpec geo).run [] calls).2, mem')

section
variable {geo : Geometry} {names : List Utf8} {name : Utf8} {calls : List DirCall} {call : DirCall} {mem mem' : Memory} {n m : Nat}
  {entries : List DirEntry} {root : Node} {files : List Node}

theorem Enough.mono (enough : Enough geo m) (le : n ≤ m) : Enough geo n := by
  obtain ⟨inodes, limit, blocks⟩ := enough
  have fewer := totalOf_mono (BlockTree.blocksOf_mono (Nat.mul_le_mul_left 32 le))
  exact ⟨by omega, by omega, by omega⟩

/-! ### Short names -/

def emptyFiles (names : List Utf8) : FileMap := names.map fun name => (name, [])

@[simp] theorem emptyFiles_names : (emptyFiles names).names = names := by
  simp [emptyFiles, FileMap.names, Function.comp_def]

@[simp] theorem emptyFiles_length : (emptyFiles names).length = names.length := List.length_map _

theorem emptyFiles_snoc : emptyFiles (names ++ [name]) = emptyFiles names ++ [(name, [])] := List.map_append

theorem emptyFiles_usage : (emptyFiles names).usage = totalOf (blocksOf (32 * names.length)) := by
  have empty : totalOf (blocksOf 0) = 0 := rfl
  rw [FileMap.usage, emptyFiles_length]
  simp [emptyFiles, Function.comp_def, empty]

theorem names_find (holds : Holds geo (emptyFiles names) mem) :
    (geo.place 0).find geo.fs name mem = .ok (fileOf geo names name, mem) := by
  rw [holds.find, FileMap.index, emptyFiles_names, fileOf]

theorem names_ls (holds : Holds geo (emptyFiles names) mem) : (geo.place 0).ls mem = .ok (names, mem) := by
  rw [holds.ls, emptyFiles_names]

/-- Each call does what the list of names does. -/
theorem dirCall_refines (geo : Geometry) :
    Refines (DirCall.exec geo.fs (geo.place 0)) (nameSpec geo) fun mem names => Holds geo (emptyFiles names) mem := by
  intro mem names call holds allowed
  cases call with
  | create name =>
    obtain ⟨valid, space⟩ := allowed name rfl
    simp only [nameSpec, nameStep]
    by_cases present : name ∈ names
    · rw [if_pos (List.contains_iff_mem.mpr present)]
      obtain ⟨mem', run, after⟩ := @Holds.create_old geo _ mem name holds (by rwa [emptyFiles_names])
      exact ⟨mem', by rw [DirCall.exec, run_bind run]; rfl, after⟩
    · obtain ⟨inodes, limit, blocks⟩ := space present
      rw [if_neg fun known => present (List.contains_iff_mem.mp known)]
      obtain ⟨mem', run, after⟩ := @Holds.create_new geo _ mem name holds (by rwa [emptyFiles_names]) valid (by rwa [emptyFiles_length])
        (by rwa [emptyFiles_length]) (by rwa [← emptyFiles_snoc, emptyFiles_usage, List.length_append])
      rw [emptyFiles_length] at run
      rw [← emptyFiles_snoc] at after
      exact ⟨mem', by rw [DirCall.exec, run_bind run]; rfl, after⟩
  | find name => exact ⟨mem, by rw [DirCall.exec, run_bind (names_find holds)]; rfl, holds⟩
  | ls => exact ⟨mem, by rw [DirCall.exec, run_bind (names_ls holds)]; rfl, holds⟩

theorem length_le_dedup {few all : List Utf8} (distinct : few.Nodup) (subset : few ⊆ all) : few.length ≤ all.dedup.length :=
  (List.subperm_of_subset distinct fun _ member => List.mem_dedup.mpr (subset member)).length_le

theorem nameStep_names (distinct : names.Nodup) :
    (nameStep geo names call).2.Nodup ∧ (nameStep geo names call).2 ⊆ names ++ call.creates.toList := by
  cases call with
  | create name =>
    simp only [nameStep]
    by_cases present : name ∈ names
    · rw [if_pos (List.contains_iff_mem.mpr present)]
      exact ⟨distinct, List.subset_append_left _ _⟩
    · rw [if_neg fun known => present (List.contains_iff_mem.mp known)]
      exact ⟨List.Nodup.append distinct (List.nodup_singleton name) (by simpa using present), List.Subset.refl _⟩
  | find name => exact ⟨distinct, List.subset_append_left _ _⟩
  | ls => exact ⟨distinct, List.subset_append_left _ _⟩

theorem createdNames_cons : createdNames (call :: calls) = call.creates.toList ++ createdNames calls := by
  unfold createdNames
  cases made : call.creates <;> simp [made]

/-- A disk with room for all the names has room where each of them is created. -/
theorem allows_names (distinct : names.Nodup) (valid : ∀ name ∈ createdNames calls, ValidName name)
    (space : Enough geo (names ++ createdNames calls).dedup.length) : (nameSpec geo).Allows names calls := by
  induction calls generalizing names with
  | nil => trivial
  | cons call rest ih =>
    obtain ⟨distinct', subset⟩ := @nameStep_names geo names call distinct
    rw [createdNames_cons] at valid space
    refine ⟨fun name new => ⟨valid name (by simp [new]), fun fresh => space.mono ?_⟩,
      ih distinct' (fun name member => valid name (List.mem_append_right _ member)) (space.mono ?_)⟩
    · have added : (names ++ [name]).Nodup := List.Nodup.append distinct (List.nodup_singleton name) (by simpa using fresh)
      have least := length_le_dedup added (show names ++ [name] ⊆ names ++ (call.creates.toList ++ createdNames rest) by
        rw [new, ← List.append_assoc]
        exact List.subset_append_left _ _)
      rwa [List.length_append] at least
    · refine length_le_dedup (List.nodup_dedup _) fun name member => ?_
      rw [← List.append_assoc]
      rcases List.mem_append.mp (List.mem_dedup.mp member) with old | later
      · exact List.mem_append_left _ (subset old)
      · exact List.mem_append_right _ later

/-! ### Long names -/

/-- What an entry gives back is shorter than its field. -/
theorem text_short {entry : DirEntry} (width : entry.name.length = 28) (text : entry.text = some name) : name.length ≤ 27 := by
  unfold DirEntry.text at text
  cases found : entry.name.findIdx? fun b => b == 0 with
  | none => simp [found] at text
  | some len =>
    have inside := (List.findIdx?_eq_some_iff_getElem.mp found).1
    simp only [found, Option.ite_none_right_eq_some, Option.some.injEq] at text
    rw [← text.2, List.length_take]
    omega

theorem lookup_long (dir : Directory geo entries root files mem) (long : 28 ≤ name.length) : lookup entries name = none := by
  rw [lookup, Option.map_eq_none_iff, List.find?_eq_none]
  intro entry member same
  obtain ⟨i, found⟩ := List.getElem?_of_mem member
  have short := text_short (dir.entry i entry found).1 (beq_iff_eq.mp same)
  omega

/-- The disk holds a directory, which cannot be read if `spoilt` holds. -/
def Spoils (geo : Geometry) (spoilt : Prop) (mem : Memory) : Prop :=
  ∃ entries root files, Directory geo entries root files mem ∧ (spoilt → ¬Readable entries)

/-- The new entry of a long name cannot be read. -/
theorem padded_spoils (free : 0 ∉ name) (long : 28 ≤ name.length) : ¬Readable (entries ++ [.padded name n]) := by
  intro readable
  have text := readable (.padded name n) (by simp)
  rw [DirEntry.padded_unreadable free long] at text
  cases text

/-- A directory that cannot be read stays so, and a long name spoils one that can. -/
theorem dirCall_spoils {spoilt : Prop} (state : Spoils geo spoilt mem) (free : ∀ name, call.creates = some name → 0 ∉ name) :
    wp (call.exec geo.fs (geo.place 0)) (fun _ mem' => Spoils geo (spoilt ∨ ∃ name, call.creates = some name ∧ 28 ≤ name.length) mem')
      (fun _ => True) mem := by
  obtain ⟨entries, root, files, dir, unread⟩ := state
  cases call with
  | create name =>
    simp only [DirCall.exec, wp_bind, wp_pure]
    refine wp_mono dir.create ?_ fun _ _ => trivial
    rintro r mem' (⟨⟨n, known⟩, _, dir', _⟩ | ⟨_, readable, _, root', created⟩)
    · refine ⟨entries, root, files, dir', ?_⟩
      rintro (old | ⟨other, same, long⟩)
      · exact unread old
      · obtain rfl : name = other := Option.some.inj same
        rw [lookup_long dir long] at known
        cases known
    · refine ⟨_, root', _, created.dir, ?_⟩
      rintro (old | ⟨other, same, long⟩)
      · exact absurd readable (unread old)
      · obtain rfl : name = other := Option.some.inj same
        exact padded_spoils (free name rfl) long
  | find name =>
    simp only [DirCall.exec, wp_bind, wp_pure]
    refine wp_mono dir.find ?_ fun _ _ => trivial
    rintro r _ ⟨rfl, _⟩
    exact ⟨entries, root, files, dir, by simpa [DirCall.creates] using unread⟩
  | ls =>
    simp only [DirCall.exec, wp_bind, wp_pure]
    refine wp_mono dir.ls ?_ fun _ _ => trivial
    rintro r _ ⟨rfl, _⟩
    exact ⟨entries, root, files, dir, by simpa [DirCall.creates] using unread⟩

theorem dirCalls_spoil {spoilt : Prop} (state : Spoils geo spoilt mem) (free : ∀ name ∈ createdNames calls, 0 ∉ name) :
    wp (execAll (DirCall.exec geo.fs (geo.place 0)) calls)
      (fun _ mem' => Spoils geo (spoilt ∨ ∃ name ∈ createdNames calls, 28 ≤ name.length) mem') (fun _ => True) mem := by
  induction calls generalizing spoilt mem with
  | nil =>
    obtain ⟨entries, root, files, dir, unread⟩ := state
    exact ⟨entries, root, files, dir, by simpa [createdNames] using unread⟩
  | cons call rest ih =>
    have made : ∀ name, call.creates = some name → name ∈ createdNames (call :: rest) := fun name new =>
      List.mem_filterMap.mpr ⟨call, List.mem_cons_self, new⟩
    have later : ∀ name ∈ createdNames rest, name ∈ createdNames (call :: rest) := by
      intro name member
      obtain ⟨other, inside, new⟩ := List.mem_filterMap.mp member
      exact List.mem_filterMap.mpr ⟨other, List.mem_cons_of_mem _ inside, new⟩
    simp only [execAll, wp_bind, wp_pure]
    refine wp_mono (dirCall_spoils state fun name new => free name (made name new)) ?_ fun _ _ => trivial
    intro _ mem₁ state₁
    refine wp_mono (ih state₁ fun name member => free name (later name member)) ?_ fun _ _ => trivial
    rintro _ mem₂ ⟨entries, root, files, dir, unread⟩
    refine ⟨entries, root, files, dir, fun spoilt => unread ?_⟩
    rcases spoilt with old | ⟨name, member, long⟩
    · exact Or.inl (Or.inl old)
    · obtain ⟨other, inside, new⟩ := List.mem_filterMap.mp member
      rcases List.mem_cons.mp inside with rfl | inside
      · exact Or.inl (Or.inr ⟨name, new, long⟩)
      · exact Or.inr ⟨name, List.mem_filterMap.mpr ⟨other, inside, new⟩, long⟩

/-- A directory that has been listed can be read. -/
theorem ls_readable (dir : Directory geo entries root files mem) (run : (geo.place 0).ls mem = .ok (names, mem')) : Readable entries := by
  have listed := (wp_ok dir.ls run).2
  intro entry member
  have text : entry.text ∈ names.map some := listed ▸ List.mem_map_of_mem member
  obtain ⟨name, _, same⟩ := List.mem_map.mp text
  rw [← same]
  rfl

end

/-! ### Every sequence -/

/-- On a new disk with room for a file of each name, names without a zero byte are tolerated, by the calls that create them and by those that
follow, exactly if none is longer than 27 bytes. -/
theorem names_tolerated (geo : Geometry) (disk : Memory) (calls : List DirCall)
    (text : ∀ name ∈ createdNames calls, 0 ∉ name ∧ isUtf8 name = true) (space : Enough geo (createdNames calls).dedup.length) :
    ∃ mem, EasyFileSystem.create geo.total geo.ib disk = .ok (geo.fs, mem) ∧
      (Tolerates geo calls mem ↔ ∀ name ∈ createdNames calls, name.length ≤ 27) := by
  obtain ⟨mem, created, new⟩ := create_returns geo.small geo.sized geo.inodes disk
  refine ⟨mem, created, ?_, fun short => ?_⟩
  · rintro ⟨mem', run, _, ls⟩ name member
    have start : Spoils geo False mem := ⟨[], .fresh .directory, [], new.directory, False.elim⟩
    obtain ⟨entries, root, files, dir, unread⟩ := wp_ok (dirCalls_spoil start fun name member => (text name member).1) run
    by_contra long
    exact unread (Or.inr ⟨name, member, by omega⟩) (ls_readable dir ls)
  · have valid : ∀ name ∈ createdNames calls, ValidName name := fun name member => ⟨(text name member).1, short name member, (text name member).2⟩
    have start : Holds geo (emptyFiles []) mem := Holds.formatted new
    obtain ⟨mem', run, after⟩ := (dirCall_refines geo).run start (allows_names List.nodup_nil valid space)
    exact ⟨mem', run, fun name => names_find after, names_ls after⟩

/-- A name is created twice, another one is not found. -/
theorem names_tolerated_twice : ∃ mem, EasyFileSystem.create 32768 1 (fun _ => 0) = .ok (packedDisk.fs, mem) ∧
    Tolerates packedDisk [.create [0x61], .create [0x61], .find [0x62], .ls] mem := by
  obtain ⟨mem, created, tolerated⟩ := names_tolerated packedDisk (fun _ => 0) [.create [0x61], .create [0x61], .find [0x62], .ls]
    (by decide) ⟨by decide, by decide, by decide⟩
  exact ⟨mem, created, tolerated.mpr (by decide)⟩

/-- A name of 28 bytes is created, and the directory cannot be listed any more. -/
theorem names_tolerated_unterminated : ∃ mem mem' fault, EasyFileSystem.create 32768 1 (fun _ => 0) = .ok (packedDisk.fs, mem) ∧
    (packedDisk.place 0).create packedDisk.fs (List.replicate 28 0x61) mem = .ok (some (packedDisk.place 1), mem') ∧
    (packedDisk.place 0).ls mem' = .error fault ∧ NameFault fault := by
  obtain ⟨mem, created, new⟩ := create_returns packedDisk.small packedDisk.sized packedDisk.inodes fun _ => 0
  have dir := @Formatted.directory packedDisk mem new
  have readable : Readable [] := fun _ member => absurd member List.not_mem_nil
  have space : Space packedDisk [] (.fresh .directory) [] := ⟨by decide, by decide, by unfold Room; decide⟩
  have spec := wp_mono (@Directory.create packedDisk _ _ _ mem (List.replicate 28 0x61) dir) (fun _ _ post => post) fun _ fails => by
    rcases fails with ⟨unread | ⟨_, long⟩, _⟩ | ⟨_, _, full⟩
    · exact unread readable
    · exact long (by decide)
    · exact full space
  obtain ⟨r, mem', run, ⟨⟨n, known⟩, _⟩ | ⟨_, _, rfl, root', made⟩⟩ := wp_returns spec
  · cases known
  · have unread := @padded_spoils (List.replicate 28 0x61) 1 [] (by decide) (by decide)
    cases ls : (packedDisk.place 0).ls mem' with
    | ok result => exact absurd (ls_readable made.dir ls) unread
    | error fault => exact ⟨mem, mem', fault, created, run, ls, (wp_error made.dir.ls ls).2⟩

end SecureIpc.Guarantees
