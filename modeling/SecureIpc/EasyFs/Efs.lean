import SecureIpc.EasyFs.Bitmap
import SecureIpc.EasyFs.Layout

/-! The file system: where its areas lie, and the allocation of inodes and data blocks. -/

namespace SecureIpc.EasyFs
open Lib

structure EasyFileSystem where
  inodeBitmap : Bitmap
  dataBitmap : Bitmap
  inodeAreaStartBlock : Nat
  dataAreaStartBlock : Nat
  deriving DecidableEq, Repr

namespace EasyFileSystem

/-- The sizes that `create` computes: the blocks of the inode area, the data bitmap and the data area. -/
def areaSizes (totalBlocks inodeBitmapBlocks : Nat) : FsM (Nat × Nat × Nat) := do
  let inodeNum := inodeBitmapBlocks * blockBits
  let inodeAreaBlocks := (inodeNum * diskInodeSize + blockSz - 1) / blockSz % 2 ^ 32
  let inodeTotalBlocks ← add32 inodeBitmapBlocks inodeAreaBlocks
  let dataTotalBlocks ← sub32 (← sub32 totalBlocks 1) inodeTotalBlocks
  let dataBitmapBlocks := (← add32 dataTotalBlocks 4096) / 4097
  let dataAreaBlocks ← sub32 dataTotalBlocks dataBitmapBlocks
  return (inodeAreaBlocks, dataBitmapBlocks, dataAreaBlocks)

def ofSizes (inodeBitmapBlocks inodeAreaBlocks dataBitmapBlocks : Nat) : FsM EasyFileSystem := do
  let inodeTotalBlocks ← add32 inodeBitmapBlocks inodeAreaBlocks
  let dataBitmapStart ← add32 1 inodeTotalBlocks
  return {
    inodeBitmap := ⟨1, inodeBitmapBlocks⟩
    dataBitmap := ⟨dataBitmapStart, dataBitmapBlocks⟩
    inodeAreaStartBlock := ← add32 1 inodeBitmapBlocks
    dataAreaStartBlock := ← add32 dataBitmapStart dataBitmapBlocks }

/-- The number of an inode is a `u32`: a larger one stands for what `as u32` makes of it. -/
def getDiskInodePos (self : EasyFileSystem) (inodeId : Nat) : FsM (Nat × Nat) := do
  let inodeId := inodeId % 2 ^ 32
  let inodesPerBlock := blockSz / diskInodeSize
  return (← add32 self.inodeAreaStartBlock (inodeId / inodesPerBlock), inodeId % inodesPerBlock * diskInodeSize)

def allocInode (self : EasyFileSystem) (held : List Nat) : FsM Nat := do
  match ← self.inodeBitmap.alloc held with
  | none => throw .bitmapFull
  | some bit => return bit % 2 ^ 32

/-- A free block of the data area, by its number on the disk. -/
def allocData (self : EasyFileSystem) (held : List Nat) : FsM Nat := do
  match ← self.dataBitmap.alloc held with
  | none => throw .bitmapFull
  | some bit => add32 (bit % 2 ^ 32) self.dataAreaStartBlock

def clearBlock (held : List Nat) (id : Nat) : FsM Unit := do
  let _ ← lockBlock held id
  modify fun mem : Memory => mem.store (blockAddr id) zeroBlock

def deallocData (self : EasyFileSystem) (held : List Nat) (blockId : Nat) : FsM Unit := do
  clearBlock held blockId
  self.dataBitmap.dealloc held (← sub32 blockId self.dataAreaStartBlock)

def clearBlocks : Nat → Nat → FsM Unit
  | 0, _ => return ()
  | count + 1, id => do
    clearBlock [] id
    clearBlocks count (id + 1)

def storeInode (held : List Nat) (blockId blockOffset : Nat) (inode : DiskInode) : FsM Unit := do
  let _ ← lockBlock held blockId
  if blockOffset + diskInodeSize ≤ blockSz then modify fun mem => inode.store mem (blockAddr blockId + blockOffset)
  else throw .assertion

def create (totalBlocks inodeBitmapBlocks : Nat) : FsM EasyFileSystem := do
  let (inodeAreaBlocks, dataBitmapBlocks, dataAreaBlocks) ← areaSizes totalBlocks inodeBitmapBlocks
  let efs ← ofSizes inodeBitmapBlocks inodeAreaBlocks dataBitmapBlocks
  clearBlocks totalBlocks 0
  let _ ← lockBlock [] 0
  modify (SuperBlock.store ⟨efsMagic, totalBlocks, inodeBitmapBlocks, inodeAreaBlocks, dataBitmapBlocks, dataAreaBlocks⟩)
  if (← efs.allocInode []) = 0 then
    let (rootInodeBlockId, rootInodeOffset) ← efs.getDiskInodePos 0
    storeInode [] rootInodeBlockId rootInodeOffset (.initialized .directory)
    return efs
  else throw .assertion

def «open» : FsM EasyFileSystem := do
  let _ ← lockBlock [] 0
  let superBlock ← Program.read SuperBlock.load
  if superBlock.isValid then ofSizes superBlock.inodeBitmapBlocks superBlock.inodeAreaBlocks superBlock.dataBitmapBlocks
  else throw .assertion

end EasyFileSystem

end SecureIpc.EasyFs
