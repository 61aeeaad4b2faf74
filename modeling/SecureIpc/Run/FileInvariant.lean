import SecureIpc.Fs.File

/-!
What the operations of the file system keep. An invariant speaks of the disk and of the files that the kernel has at hand; it
knows nothing of a file that neither `find` nor `create` has returned.
-/

namespace SecureIpc
open Lib

/-- A property of the disk, and one of a file and a place in it up to which it may have been read or written. -/
structure FsProperty (fs : FileSystem) where
  disk : fs.State → Prop
  file : fs.State → fs.Inode → Nat → Prop

def FsProperty.Onward {fs : FileSystem} (self : FsProperty fs) (d d' : fs.State) : Prop :=
  self.disk d' ∧ ∀ inode offset, self.file d inode offset → self.file d' inode offset

/-- A property that every operation keeps, and that the files it returns have. -/
structure FsInvariant (fs : FileSystem) extends FsProperty fs where
  find : ∀ {d d' name r}, disk d → fs.find name d = some (r, d') →
    toFsProperty.Onward d d' ∧ ∀ inode, r = some inode → file d' inode 0
  create : ∀ {d d' name r}, disk d → fs.create name d = some (r, d') →
    toFsProperty.Onward d d' ∧ ∀ inode, r = some inode → file d' inode 0
  clear : ∀ {d d' inode offset}, disk d → file d inode offset → fs.clear inode d = some d' → toFsProperty.Onward d d'
  readAt : ∀ {d d' inode offset len bytes}, disk d → file d inode offset → fs.readAt inode offset len d = some (bytes, d') →
    toFsProperty.Onward d d' ∧ file d' inode (offset + (bytes.take len).length)
  writeAt : ∀ {d d' inode offset buf}, disk d → file d inode offset → fs.writeAt inode offset buf d = some (buf.length, d') →
    toFsProperty.Onward d d' ∧ file d' inode (offset + buf.length)

section
variable {P : Platform} {d d' d'' : P.fs.State} {inode : P.fs.Inode} {offset : Nat} {inodes : Nat → Option (OSInodeInner P)}

/-- The property holds of the disk and of every open file. -/
structure FsProperty.Keeps (property : FsProperty P.fs) (inodes : Nat → Option (OSInodeInner P)) (d : P.fs.State) : Prop where
  disk : property.disk d
  files : ∀ {inner state}, inodes inner = some state → property.file d state.inode state.offset

namespace FsProperty.Keeps

theorem onward {property : FsProperty P.fs} (keeps : property.Keeps inodes d) (onward : property.Onward d d') : property.Keeps inodes d' :=
  ⟨onward.1, fun opened => onward.2 _ _ (keeps.files opened)⟩

theorem set {property : FsProperty P.fs} (keeps : property.Keeps inodes d) (known : property.file d inode offset) (inner : Nat) :
    property.Keeps (Kernel.set inodes inner (some ⟨offset, inode⟩)) d := by
  refine ⟨keeps.disk, fun {other state} opened => ?_⟩
  unfold Kernel.set at opened
  split_ifs at opened
  · obtain rfl := Option.some.inj opened
    exact known
  · exact keeps.files opened

end FsProperty.Keeps

/-- Every invariant goes over from one state of the disk to the other. -/
def Onward (d d' : P.fs.State) : Prop := ∀ inv : FsInvariant P.fs, inv.disk d → inv.Onward d d'

/-- The file has been opened since the disk was in state `d`. -/
def Found (d d' : P.fs.State) (inode : P.fs.Inode) (offset : Nat) : Prop := ∀ inv : FsInvariant P.fs, inv.disk d → inv.file d' inode offset

namespace Onward

theorem trans (first : Onward d d') (second : Onward d' d'') : Onward d d'' := by
  intro inv holds
  obtain ⟨middle, kept⟩ := first inv holds
  obtain ⟨last, kept'⟩ := second inv middle
  exact ⟨last, fun inode offset known => kept' inode offset (kept inode offset known)⟩

theorem keeps (onward : Onward d d') {inv : FsInvariant P.fs} (keeps : inv.Keeps inodes d) : inv.Keeps inodes d' :=
  keeps.onward (onward inv keeps.disk)

/-! ### The operations -/

theorem find {name : Utf8} {r : Option P.fs.Inode} (run : P.fs.find name d = some (r, d')) :
    Onward d d' ∧ ∀ inode, r = some inode → Found d d' inode 0 :=
  ⟨fun inv holds => (inv.find holds run).1, fun inode same inv holds => (inv.find holds run).2 inode same⟩

theorem create {name : Utf8} {r : Option P.fs.Inode} (run : P.fs.create name d = some (r, d')) :
    Onward d d' ∧ ∀ inode, r = some inode → Found d d' inode 0 :=
  ⟨fun inv holds => (inv.create holds run).1, fun inode same inv holds => (inv.create holds run).2 inode same⟩

theorem clear (onward : Onward d d') (found : Found d d' inode offset) (run : P.fs.clear inode d' = some d'') :
    Onward d d'' ∧ Found d d'' inode offset := by
  have cleared : ∀ inv : FsInvariant P.fs, inv.disk d → inv.Onward d' d'' := fun inv holds =>
    inv.clear (onward inv holds).1 (found inv holds) run
  exact ⟨fun inv holds => ⟨(cleared inv holds).1, fun inode offset known => (cleared inv holds).2 _ _ ((onward inv holds).2 _ _ known)⟩,
    fun inv holds => (cleared inv holds).2 _ _ (found inv holds)⟩

theorem readAt {len : Nat} {bytes : List UInt8} (onward : Onward d d') (found : Found d d' inode offset)
    (run : P.fs.readAt inode offset len d' = some (bytes, d'')) :
    Onward d d'' ∧ Found d d'' inode (offset + (bytes.take len).length) := by
  have read : ∀ inv : FsInvariant P.fs, inv.disk d → inv.Onward d' d'' ∧ inv.file d'' inode (offset + (bytes.take len).length) :=
    fun inv holds => inv.readAt (onward inv holds).1 (found inv holds) run
  exact ⟨fun inv holds => ⟨(read inv holds).1.1, fun inode offset known => (read inv holds).1.2 _ _ ((onward inv holds).2 _ _ known)⟩,
    fun inv holds => (read inv holds).2⟩

end Onward

/-- A file that has been found is opened. -/
theorem Found.opens (found : Found d d' inode offset) (onward : Onward d d') {inv : FsInvariant P.fs} (keeps : inv.Keeps inodes d) (inner : Nat) :
    inv.Keeps (Kernel.set inodes inner (some ⟨offset, inode⟩)) d' :=
  (onward.keeps keeps).set (found inv keeps.disk) inner

end

end SecureIpc
