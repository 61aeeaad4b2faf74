import SecureIpc.EasyFs.Disk

/-!
The structures on the disk: the super block, inodes with their direct and indirect blocks, and directory
entries. A function that works on an inode in place takes it and returns it; the inode lies in a block that
its caller has locked.
-/

namespace SecureIpc.EasyFs
open Lib

def efsMagic : Nat := 0x3b800001

def inodeDirectCount : Nat := 28

def nameLengthLimit : Nat := 27

def inodeIndirect1Count : Nat := blockSz / 4

def inodeIndirect2Count : Nat := inodeIndirect1Count * inodeIndirect1Count

def indirect1Bound : Nat := inodeDirectCount + inodeIndirect1Count

def indirectEntry (mem : Memory) (id i : Nat) : Nat := mem.readNat 4 (blockAddr id + 4 * i)

def setIndirectEntry (mem : Memory) (id i value : Nat) : Memory := mem.writeNat 4 (blockAddr id + 4 * i) value

/-! ### The super block -/

structure SuperBlock where
  magic : Nat
  totalBlocks : Nat
  inodeBitmapBlocks : Nat
  inodeAreaBlocks : Nat
  dataBitmapBlocks : Nat
  dataAreaBlocks : Nat
  deriving DecidableEq, Repr

namespace SuperBlock

def load (mem : Memory) : SuperBlock where
  magic := mem.readNat 4 0
  totalBlocks := mem.readNat 4 4
  inodeBitmapBlocks := mem.readNat 4 8
  inodeAreaBlocks := mem.readNat 4 12
  dataBitmapBlocks := mem.readNat 4 16
  dataAreaBlocks := mem.readNat 4 20

def store (self : SuperBlock) (mem : Memory) : Memory :=
  mem.store 0 ([self.magic, self.totalBlocks, self.inodeBitmapBlocks, self.inodeAreaBlocks, self.dataBitmapBlocks,
    self.dataAreaBlocks].flatMap (toBytes 4))

def isValid (self : SuperBlock) : Bool := self.magic == efsMagic

end SuperBlock

/-! ### Inodes -/

inductive DiskInodeType where
  | file | directory
  deriving DecidableEq, Repr

def DiskInodeType.toByte : DiskInodeType → UInt8
  | .file => 0
  | .directory => 1

structure DiskInode where
  size : Nat
  direct : List Nat
  indirect1 : Nat
  indirect2 : Nat
  type : DiskInodeType
  deriving DecidableEq, Repr

def diskInodeSize : Nat := 128

namespace DiskInode

def load (mem : Memory) (addr : Nat) : DiskInode where
  size := mem.readNat 4 addr
  direct := (List.range inodeDirectCount).map fun i => mem.readNat 4 (addr + 4 + 4 * i)
  indirect1 := mem.readNat 4 (addr + 116)
  indirect2 := mem.readNat 4 (addr + 120)
  type := if mem (addr + 124) = 1 then .directory else .file

def store (self : DiskInode) (mem : Memory) (addr : Nat) : Memory :=
  mem.store addr (toBytes 4 self.size ++ self.direct.flatMap (toBytes 4) ++ toBytes 4 self.indirect1 ++
    toBytes 4 self.indirect2 ++ [self.type.toByte])

def initialized (type : DiskInodeType) : DiskInode :=
  { size := 0, direct := List.replicate inodeDirectCount 0, indirect1 := 0, indirect2 := 0, type }

def isDir (self : DiskInode) : Bool := self.type == .directory

/-- `_data_blocks`. -/
def dataBlocksOf (size : Nat) : FsM Nat := do return ((← add32 size blockSz) - 1) / blockSz

def dataBlocks (self : DiskInode) : FsM Nat := dataBlocksOf self.size

def totalBlocks (size : Nat) : FsM Nat := do
  let dataBlocks ← dataBlocksOf size
  let indirect1 := if inodeDirectCount < dataBlocks then 1 else 0
  let indirect2 :=
    if indirect1Bound < dataBlocks then 1 + (dataBlocks - indirect1Bound + inodeIndirect1Count - 1) / inodeIndirect1Count
    else 0
  return (dataBlocks + indirect1 + indirect2) % 2 ^ 32

def blocksNumNeeded (self : DiskInode) (newSize : Nat) : FsM Nat := do
  if self.size ≤ newSize then sub32 (← totalBlocks newSize) (← totalBlocks self.size)
  else throw .assertion

/-- `xs[i]` of an indirect block, whose cache is locked. -/
def readEntry (id i : Nat) : FsM Nat :=
  if i < inodeIndirect1Count then Program.read (indirectEntry · id i) else throw .index

def writeEntry (id i value : Nat) : FsM Unit :=
  if i < inodeIndirect1Count then modify (setIndirectEntry · id i value) else throw .index

def getBlockId (self : DiskInode) (held : List Nat) (innerId : Nat) : FsM Nat := do
  if innerId < inodeDirectCount then return self.direct.getD innerId 0
  else if innerId < indirect1Bound then
    let _ ← lockBlock held self.indirect1
    readEntry self.indirect1 (innerId - inodeDirectCount)
  else
    let last := innerId - indirect1Bound
    let _ ← lockBlock held self.indirect2
    let indirect1 ← readEntry self.indirect2 (last / inodeIndirect1Count)
    let _ ← lockBlock held indirect1
    readEntry indirect1 (last % inodeIndirect1Count)

/-- `new_blocks.next().unwrap()`. -/
def nextBlock : List Nat → FsM (Nat × List Nat)
  | [] => throw .noBlock
  | block :: rest => return (block, rest)

def fillDirect (self : DiskInode) : Nat → Nat → List Nat → FsM (DiskInode × List Nat)
  | 0, _, newBlocks => return (self, newBlocks)
  | count + 1, current, newBlocks => do
    let (block, newBlocks) ← nextBlock newBlocks
    fillDirect { self with direct := self.direct.set current block } count (current + 1) newBlocks

def fillIndirect1 (indirect1 : Nat) : Nat → Nat → List Nat → FsM (List Nat)
  | 0, _, newBlocks => return newBlocks
  | count + 1, current, newBlocks => do
    let (block, newBlocks) ← nextBlock newBlocks
    writeEntry indirect1 current block
    fillIndirect1 indirect1 count (current + 1) newBlocks

/-- At the first entry of an indirect block, the block itself. -/
def nextSub (indirect2 a0 b0 : Nat) (newBlocks : List Nat) : FsM (List Nat) := do
  if b0 = 0 then
    let (block, newBlocks) ← nextBlock newBlocks
    writeEntry indirect2 a0 block
    return newBlocks
  else return newBlocks

/-- The loop from `(a0, b0)` to `(a1, b1)`; `fuel` bounds its rounds. -/
def fillIndirect2 (held : List Nat) (indirect2 a1 b1 : Nat) : Nat → Nat → Nat → List Nat → FsM (List Nat)
  | 0, _, _, newBlocks => return newBlocks
  | fuel + 1, a0, b0, newBlocks => do
    if a0 < a1 ∨ a0 = a1 ∧ b0 < b1 then
      let newBlocks ← nextSub indirect2 a0 b0 newBlocks
      let indirect1 ← readEntry indirect2 a0
      let _ ← lockBlock held indirect1
      let (block, newBlocks) ← nextBlock newBlocks
      writeEntry indirect1 b0 block
      if b0 + 1 = inodeIndirect1Count then fillIndirect2 held indirect2 a1 b1 fuel (a0 + 1) 0 newBlocks
      else fillIndirect2 held indirect2 a1 b1 fuel a0 (b0 + 1) newBlocks
    else return newBlocks

def nextIndirect1 (self : DiskInode) (current : Nat) (newBlocks : List Nat) : FsM (DiskInode × List Nat) := do
  if current = inodeDirectCount then
    let (block, newBlocks) ← nextBlock newBlocks
    return ({ self with indirect1 := block }, newBlocks)
  else return (self, newBlocks)

def nextIndirect2 (self : DiskInode) (current : Nat) (newBlocks : List Nat) : FsM (DiskInode × List Nat) := do
  if current = inodeIndirect1Count then
    let (block, newBlocks) ← nextBlock newBlocks
    return ({ self with indirect2 := block }, newBlocks)
  else return (self, newBlocks)

/-- The part of `increase_size` for the double indirect block; `current` and `total` count the blocks behind the
direct ones. -/
def increaseIndirect2 (self : DiskInode) (held : List Nat) (current total : Nat) (newBlocks : List Nat) : FsM DiskInode := do
  let (self, newBlocks) ← self.nextIndirect2 current newBlocks
  let current ← sub32 current inodeIndirect1Count
  let total ← sub32 total inodeIndirect1Count
  let held ← lockBlock held self.indirect2
  let _ ← fillIndirect2 held self.indirect2 (total / inodeIndirect1Count) (total % inodeIndirect1Count) (total - current)
    (current / inodeIndirect1Count) (current % inodeIndirect1Count) newBlocks
  return self

def increaseIndirect1 (self : DiskInode) (held : List Nat) (current total : Nat) (newBlocks : List Nat) : FsM DiskInode := do
  let (self, newBlocks) ← self.nextIndirect1 current newBlocks
  let current ← sub32 current inodeDirectCount
  let total ← sub32 total inodeDirectCount
  let _ ← lockBlock held self.indirect1
  let filled := max current (min total inodeIndirect1Count)
  let newBlocks ← fillIndirect1 self.indirect1 (filled - current) current newBlocks
  if total ≤ inodeIndirect1Count then return self else self.increaseIndirect2 held filled total newBlocks

def increaseSize (self : DiskInode) (held : List Nat) (newSize : Nat) (newBlocks : List Nat) : FsM DiskInode := do
  let current ← self.dataBlocks
  let self := { self with size := newSize }
  let total ← self.dataBlocks
  let filled := max current (min total inodeDirectCount)
  let (self, newBlocks) ← self.fillDirect (filled - current) current newBlocks
  if total ≤ inodeDirectCount then return self else self.increaseIndirect1 held filled total newBlocks

def entries (mem : Memory) (id count : Nat) : List Nat := (List.range count).map (indirectEntry mem id)

/-- The full indirect blocks that `clear_size` collects, each with its entries. -/
def collectFull (held : List Nat) : List Nat → FsM (List Nat)
  | [] => return []
  | entry :: rest => do
    let _ ← lockBlock held entry
    let blocks ← Program.read (entries · entry inodeIndirect1Count)
    let later ← collectFull held rest
    return entry :: blocks ++ later

def collectIndirect2 (held : List Nat) (indirect2 dataBlocks : Nat) : FsM (List Nat) := do
  if inodeIndirect2Count < dataBlocks then throw .assertion
  else
    let a1 := dataBlocks / inodeIndirect1Count
    let b1 := dataBlocks % inodeIndirect1Count
    let held ← lockBlock held indirect2
    let full ← collectFull held (← Program.read (entries · indirect2 a1))
    if 0 < b1 then
      let last ← readEntry indirect2 a1
      let _ ← lockBlock held last
      let blocks ← Program.read (entries · last b1)
      return full ++ last :: blocks
    else return full

def clearSize (self : DiskInode) (held : List Nat) : FsM (List Nat × DiskInode) := do
  let dataBlocks ← self.dataBlocks
  let self := { self with size := 0 }
  let count := min dataBlocks inodeDirectCount
  let v := self.direct.take count
  let self := { self with direct := List.replicate count 0 ++ self.direct.drop count }
  if dataBlocks ≤ inodeDirectCount then return (v, self)
  else
    let v := v ++ [self.indirect1]
    let dataBlocks := dataBlocks - inodeDirectCount
    let _ ← lockBlock held self.indirect1
    let blocks ← Program.read (entries · self.indirect1 (min dataBlocks inodeIndirect1Count))
    let v := v ++ blocks
    let self := { self with indirect1 := 0 }
    if dataBlocks ≤ inodeIndirect1Count then return (v, self)
    else
      let v := v ++ [self.indirect2]
      let below ← collectIndirect2 held self.indirect2 (dataBlocks - inodeIndirect1Count)
      return (v ++ below, { self with indirect2 := 0 })

/-- The loop of `read_at`; `fuel` bounds the blocks after the first. -/
def readBlocks (self : DiskInode) (held : List Nat) (stop : Nat) : Nat → Nat → Nat → FsM (List UInt8)
  | fuel, startBlock, start => do
    let endCurrentBlock := min ((start / blockSz + 1) * blockSz) stop
    let id ← self.getBlockId held (startBlock % 2 ^ 32)
    let _ ← lockBlock held id
    let bytes ← Program.read fun mem : Memory => mem.load (blockAddr id + start % blockSz) (endCurrentBlock - start)
    if endCurrentBlock = stop then return bytes
    else
      match fuel with
      | 0 => return bytes
      | fuel + 1 => return bytes ++ (← readBlocks self held stop fuel (startBlock + 1) endCurrentBlock)

/-- The bytes that `read_at` puts at the start of a buffer of `len` bytes. -/
def readAt (self : DiskInode) (held : List Nat) (offset len : Nat) : FsM (List UInt8) := do
  let stop := min (← Program.lift ((checkedAdd offset len).elim (.error .overflow) .ok)) self.size
  if stop ≤ offset then return []
  else self.readBlocks held stop (stop / blockSz - offset / blockSz) (offset / blockSz) offset

/-- The loop of `write_at`; `fuel` bounds the blocks after the first. -/
def writeBlocks (self : DiskInode) (held : List Nat) (stop : Nat) : Nat → Nat → Nat → List UInt8 → FsM Unit
  | fuel, startBlock, start, buf => do
    let endCurrentBlock := min ((start / blockSz + 1) * blockSz) stop
    let blockWriteSize := endCurrentBlock - start
    let id ← self.getBlockId held (startBlock % 2 ^ 32)
    let _ ← lockBlock held id
    modify fun mem : Memory => mem.store (blockAddr id + start % blockSz) (buf.take blockWriteSize)
    if endCurrentBlock = stop then return ()
    else
      match fuel with
      | 0 => return ()
      | fuel + 1 => writeBlocks self held stop fuel (startBlock + 1) endCurrentBlock (buf.drop blockWriteSize)

def writeAt (self : DiskInode) (held : List Nat) (offset : Nat) (buf : List UInt8) : FsM Nat := do
  let stop := min (← Program.lift ((checkedAdd offset buf.length).elim (.error .overflow) .ok)) self.size
  if offset ≤ stop then
    self.writeBlocks held stop (stop / blockSz - offset / blockSz) (offset / blockSz) offset buf
    return stop - offset
  else throw .assertion

end DiskInode

/-! ### Directory entries -/

structure DirEntry where
  name : List UInt8
  inodeNumber : Nat
  deriving DecidableEq, Repr

def direntSz : Nat := 32

namespace DirEntry

/-- `DirEntry::new`, which panics for a name of more than 28 bytes. -/
def new (name : Utf8) (inodeNumber : Nat) : FsM DirEntry :=
  if name.length ≤ nameLengthLimit + 1 then
    return ⟨name ++ List.replicate (nameLengthLimit + 1 - name.length) 0, inodeNumber⟩
  else throw .index

def asBytes (self : DirEntry) : List UInt8 := self.name ++ toBytes 4 self.inodeNumber

def ofBytes (bytes : List UInt8) : DirEntry := ⟨bytes.take (nameLengthLimit + 1), Lib.ofBytes (bytes.drop (nameLengthLimit + 1))⟩

/-- `name()`, which panics without a terminator. -/
def decodeName (self : DirEntry) : FsM Utf8 :=
  match self.name.findIdx? fun b => b == 0 with
  | none => throw .index
  | some len => if isUtf8 (self.name.take len) then return self.name.take len else throw .notUtf8

end DirEntry

end SecureIpc.EasyFs
