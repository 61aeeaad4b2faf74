import SecureIpc.EasyFs.Listing
import SecureIpc.Guarantees.Segments
import SecureIpc.Run.Invariant

/-!
The disk under a running kernel: whatever the processes do, it holds a directory with its files, and every open `OSInode` is one
of them, at an offset that no file exceeds.
-/

namespace SecureIpc.Guarantees
open Lib EasyFs

/-- The inode belongs to the `i`-th file of the directory, and `offset` is at most the size of the largest file. -/
structure FileAt (geo : Geometry) (mem : Memory) (inode : Inode) (offset : Nat) (listing : Listing) (i : Nat) (file : DirEntry × List UInt8) :
    Prop where
  listed : Listed geo listing mem
  found : listing[i]? = some file
  place : inode = geo.place (i + 1)
  low : offset ≤ maxBlocks * 512

section
variable {geo : Geometry} {listing listing' : Listing} {mem mem' : Memory}

def DiskProperty (geo : Geometry) (base : Platform) (start : Memory) : FsProperty (onEasyFs geo base start).fs where
  disk mem := ∃ listing, Listed geo listing mem
  file mem inode offset := ∃ listing i file, FileAt geo mem inode offset listing i file

/-- A disk with at least as many files has all the old ones. -/
theorem onward_of_listed {base : Platform} {start : Memory} (listed : Listed geo listing mem) (listed' : Listed geo listing' mem')
    (grown : listing.length ≤ listing'.length) : (DiskProperty geo base start).Onward mem mem' := by
  refine ⟨⟨listing', listed'⟩, ?_⟩
  rintro inode offset ⟨_, i, _, before, found, place, low⟩
  obtain rfl := listed.unique before
  have inside : i < listing'.length := Nat.lt_of_lt_of_le (List.getElem?_eq_some_iff.mp found).1 grown
  exact ⟨listing', i, listing'[i], listed', List.getElem?_eq_getElem inside, place, low⟩

/-- The operations of `easy-fs` keep the directory, and return files that are in it. -/
def diskInvariant (geo : Geometry) (base : Platform) (start : Memory) : FsInvariant (onEasyFs geo base start).fs where
  toFsProperty := DiskProperty geo base start
  find {mem mem' name r} holds run := by
    obtain ⟨listing, listed⟩ := holds
    obtain ⟨rfl, rfl⟩ := wp_ok (@Listed.find geo listing mem name listed) (toOption_eq_some.mp run)
    refine ⟨onward_of_listed listed listed (Nat.le_refl _), fun inode returned => ?_⟩
    obtain ⟨file, present, rfl⟩ := Option.map_eq_some_iff.mp returned
    obtain ⟨i, found, number⟩ := listed.position present
    exact ⟨listing, i, file, listed, found, by rw [number], Nat.zero_le _⟩
  create {mem mem' name r} holds run := by
    obtain ⟨listing, listed⟩ := holds
    obtain ⟨_, rfl, listed'⟩ | ⟨_, rfl, entry, listed'⟩ := wp_ok (@Listed.create geo listing mem name listed) (toOption_eq_some.mp run)
    · exact ⟨onward_of_listed listed listed' (Nat.le_refl _), nofun⟩
    · refine ⟨onward_of_listed listed listed' (by simp), fun inode returned => ?_⟩
      obtain rfl := Option.some.inj returned
      exact ⟨_, listing.length, (entry, []), listed', by simp, rfl, Nat.zero_le _⟩
  clear {mem mem' inode offset} _ known run := by
    obtain ⟨listing, i, file, listed, found, rfl, _⟩ := known
    obtain ⟨⟨_, _⟩, ran, rfl⟩ := Option.map_eq_some_iff.mp run
    have listed' := wp_ok (listed.clear found) (toOption_eq_some.mp ran)
    exact onward_of_listed listed listed' (by simp)
  readAt {mem mem' inode offset len bytes} _ known run := by
    obtain ⟨listing, i, file, listed, found, rfl, low⟩ := known
    obtain ⟨rfl, rfl⟩ := wp_ok (listed.readAt found) (toOption_eq_some.mp run)
    have size := listed.size_le found
    have length := @slice_length file.2 offset len
    refine ⟨onward_of_listed listed listed (Nat.le_refl _), listing, i, file, listed, found, rfl, ?_⟩
    rw [List.length_take]
    omega
  writeAt {mem mem' inode offset buf} _ known run := by
    obtain ⟨listing, i, file, listed, found, rfl, low⟩ := known
    obtain ⟨bytes, listed', _, amount⟩ := wp_ok (listed.writeAt found) (toOption_eq_some.mp run)
    have found' : (listing.set i (file.1, bytes))[i]? = some (file.1, bytes) :=
      List.getElem?_set_self (List.getElem?_eq_some_iff.mp found).1
    have size : bytes.length ≤ maxBlocks * 512 := listed'.size_le found'
    refine ⟨onward_of_listed listed listed' (by simp), _, i, (file.1, bytes), listed', found', rfl, ?_⟩
    omega

end

section
variable {geo : Geometry} {base : Platform} {start : Memory} {s : System (onEasyFs geo base start)} {k : Kernel (onEasyFs geo base start)}
  {listing : Listing} {inner : Nat}

/-- In every state of every run, the disk holds a directory with its files. -/
theorem disk_listed (reachable : Reachable s) (passes : Passes s k) (booted : Listed geo listing start) :
    ∃ listing, Listed geo listing k.disk :=
  (@Passes.keepsFiles _ k s passes reachable (diskInvariant geo base start) ⟨listing, booted⟩).disk

/-- In every state of every run, an open `OSInode` is a file of the directory. -/
theorem inode_listed {state : OSInodeInner (onEasyFs geo base start)} (reachable : Reachable s) (passes : Passes s k)
    (booted : Listed geo listing start) (opened : k.inodes inner = some state) :
    ∃ listing i file, FileAt geo k.disk state.inode state.offset listing i file :=
  (@Passes.keepsFiles _ k s passes reachable (diskInvariant geo base start) ⟨listing, booted⟩).files opened

end

end SecureIpc.Guarantees
