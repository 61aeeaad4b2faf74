import SecureIpc.EasyFs.Efs

/-! Files and the root directory. -/

namespace SecureIpc.EasyFs
open Lib

structure Inode where
  blockId : Nat
  blockOffset : Nat
  deriving DecidableEq, Repr

namespace Inode

/-- `BlockCache::get_ref` and `get_mut` check that the inode lies inside the block. -/
def checkPlace (self : Inode) : FsM Unit :=
  if self.blockOffset + diskInodeSize ≤ blockSz then return () else throw .assertion

def addr (self : Inode) : Nat := blockAddr self.blockId + self.blockOffset

def readDiskInode {α : Type} (self : Inode) (held : List Nat) (f : List Nat → DiskInode → FsM α) : FsM α := do
  let held ← lockBlock held self.blockId
  self.checkPlace
  f held (← Program.read (DiskInode.load · self.addr))

def modifyDiskInode {α : Type} (self : Inode) (held : List Nat) (f : List Nat → DiskInode → FsM (α × DiskInode)) : FsM α := do
  let held ← lockBlock held self.blockId
  self.checkPlace
  let (a, diskInode) ← f held (← Program.read (DiskInode.load · self.addr))
  modify fun mem => diskInode.store mem self.addr
  return a

def readDirEntry (held : List Nat) (diskInode : DiskInode) (i : Nat) : FsM DirEntry := do
  let bytes ← diskInode.readAt held (direntSz * i) direntSz
  if bytes.length = direntSz then return .ofBytes bytes else throw .assertion

def scanEntries (held : List Nat) (diskInode : DiskInode) (name : Utf8) : Nat → Nat → FsM (Option Nat)
  | 0, _ => return none
  | count + 1, i => do
    let dirent ← readDirEntry held diskInode i
    if (← dirent.decodeName) = name then return some dirent.inodeNumber
    else scanEntries held diskInode name count (i + 1)

def findInodeId (held : List Nat) (name : Utf8) (diskInode : DiskInode) : FsM (Option Nat) :=
  if diskInode.isDir then scanEntries held diskInode name (diskInode.size / direntSz) 0 else throw .assertion

section
variable (fs : EasyFileSystem)

def ofId (inodeId : Nat) : FsM Inode := do
  let (blockId, blockOffset) ← fs.getDiskInodePos inodeId
  return ⟨blockId, blockOffset⟩

def root : FsM Inode := ofId fs 0

def find (self : Inode) (name : Utf8) : FsM (Option Inode) :=
  self.readDiskInode [] fun held diskInode => do
    match ← findInodeId held name diskInode with
    | none => return none
    | some inodeId => return some (← ofId fs inodeId)

def allocBlocks (held : List Nat) : Nat → FsM (List Nat)
  | 0 => return []
  | count + 1 => do
    let block ← fs.allocData held
    return block :: (← allocBlocks held count)

def increaseSize (held : List Nat) (newSize : Nat) (diskInode : DiskInode) : FsM DiskInode := do
  if newSize < diskInode.size then return diskInode
  else
    let blocksNeeded ← diskInode.blocksNumNeeded newSize
    let v ← allocBlocks fs held blocksNeeded
    diskInode.increaseSize held newSize v

def create (self : Inode) (name : Utf8) : FsM (Option Inode) := do
  let found ← self.modifyDiskInode [] fun held rootInode => do
    if rootInode.isDir then return (← findInodeId held name rootInode, rootInode) else throw .assertion
  match found with
  | some _ => return none
  | none =>
    let newInodeId ← fs.allocInode []
    let newInode ← ofId fs newInodeId
    EasyFileSystem.storeInode [] newInode.blockId newInode.blockOffset (.initialized .file)
    self.modifyDiskInode [] fun held rootInode => do
      let fileCount := rootInode.size / direntSz
      let newSize := (fileCount + 1) * direntSz
      let rootInode ← increaseSize fs held (newSize % 2 ^ 32) rootInode
      let dirent ← DirEntry.new name newInodeId
      let _ ← rootInode.writeAt held (fileCount * direntSz) dirent.asBytes
      return ((), rootInode)
    return some (← ofId fs newInodeId)

def listEntries (held : List Nat) (diskInode : DiskInode) : Nat → Nat → FsM (List Utf8)
  | 0, _ => return []
  | count + 1, i => do
    let dirent ← readDirEntry held diskInode i
    let name ← dirent.decodeName
    return name :: (← listEntries held diskInode count (i + 1))

def ls (self : Inode) : FsM (List Utf8) :=
  self.readDiskInode [] fun held diskInode => listEntries held diskInode (diskInode.size / direntSz) 0

def readAt (self : Inode) (offset len : Nat) : FsM (List UInt8) :=
  self.readDiskInode [] fun held diskInode => diskInode.readAt held offset len

def writeAt (self : Inode) (offset : Nat) (buf : List UInt8) : FsM Nat :=
  self.modifyDiskInode [] fun held diskInode => do
    let stop ← Program.lift ((checkedAdd offset buf.length).elim (.error .overflow) .ok)
    let diskInode ← increaseSize fs held (stop % 2 ^ 32) diskInode
    return (← diskInode.writeAt held offset buf, diskInode)

def deallocBlocks (held : List Nat) : List Nat → FsM Unit
  | [] => return ()
  | block :: rest => do
    fs.deallocData held block
    deallocBlocks held rest

def clear (self : Inode) : FsM Unit :=
  self.modifyDiskInode [] fun held diskInode => do
    let size := diskInode.size
    let (dataBlocksDealloc, diskInode) ← diskInode.clearSize held
    if dataBlocksDealloc.length = (← DiskInode.totalBlocks size) then
      deallocBlocks fs held dataBlocksDealloc
      return ((), diskInode)
    else throw .assertion

end

end Inode

end SecureIpc.EasyFs
