import SecureIpc.Mm.PageTable
import SecureIpc.Mm.FrameAllocator

/-!
Page-table updates, map areas and address spaces. Owning a `FrameTracker` is holding its frame
number; dropping a value gives its frames back in the order in which Rust drops its fields.
-/

namespace SecureIpc
open Lib

def userStackSize : Nat := 4096 * 2

def kernelStackSize : Nat := 4096 * 2

/-- The linker symbols; the linker script puts the trampoline at the start of a page inside the kernel image, and
`ekernel` after the sections. -/
structure Layout where
  stext : Nat
  etext : Nat
  srodata : Nat
  erodata : Nat
  sdata : Nat
  edata : Nat
  sbssWithStack : Nat
  ebss : Nat
  ekernel : Nat
  strampoline : Nat
  trampoline_inside : strampoline < ekernel
  trampoline_aligned : strampoline % pageSize = 0
  kernel_fits : ekernel ≤ memoryEnd
  text_inside : etext ≤ ekernel
  rodata_inside : erodata ≤ ekernel
  data_inside : edata ≤ ekernel
  bss_inside : ebss ≤ ekernel

def Layout.firstFrame (layout : Layout) : Nat := PhysAddr.ceil (PhysAddr.ofUsize layout.ekernel)

def lastFrame : Nat := PhysAddr.floor (PhysAddr.ofUsize memoryEnd)

namespace PageTable

def new : MmM PageTable := do
  let frame ← Mm.frameAlloc
  return ⟨frame, [frame]⟩

/-- One level of `find_pte_create`: the node behind entry `index` of node `ppn`, created when absent. -/
def childCreate (self : PageTable) (ppn index : Nat) : MmM (PageTable × Nat) := do
  let pte ← Program.read fun mm : Mm => readPte mm.mem ppn index
  if pte.isValid then return (self, pte.ppn)
  else
    let frame ← Mm.frameAlloc
    let pte := PageTableEntry.new frame PTEFlags.V
    Mm.writePte ppn index pte.bits
    return ({ self with frames := self.frames ++ [frame] }, pte.ppn)

/-- The node and index of the level-3 entry of `vpn`. -/
def findPteCreate (self : PageTable) (vpn : Nat) : MmM (PageTable × Nat × Nat) := do
  let (i₀, i₁, i₂) := VirtPageNum.indexes vpn
  let (self, ppn) ← self.childCreate self.rootPpn i₀
  let (self, ppn) ← self.childCreate ppn i₁
  return (self, ppn, i₂)

def map (self : PageTable) (vpn ppn flags : Nat) : MmM PageTable := do
  let (self, node, index) ← self.findPteCreate vpn
  let pte ← Program.read fun mm : Mm => readPte mm.mem node index
  if pte.isValid then throw .alreadyMapped
  else
    Mm.writePte node index (PageTableEntry.new ppn (flags ||| PTEFlags.V)).bits
    return self

def unmap (self : PageTable) (vpn : Nat) : MmM Unit := do
  match ← Program.read fun mm : Mm => self.findPte mm.mem vpn with
  | none => throw .untranslated
  | some addr =>
    let pte ← Program.read fun mm : Mm => PageTableEntry.mk (mm.mem.readWord addr)
    if pte.isValid then modify fun mm => { mm with mem := mm.mem.writeWord addr PageTableEntry.empty.bits }
    else throw .notMapped

end PageTable

inductive MapType where
  | identical | framed
  deriving DecidableEq, Repr

/-- A contiguous range of pages; `dataFrames` is ordered by page number. -/
structure MapArea where
  vpnStart : Nat
  vpnEnd : Nat
  dataFrames : List (Nat × Nat)
  mapType : MapType
  mapPerm : Nat
  deriving DecidableEq, Repr

namespace MapArea

def new (startVa endVa : Nat) (mapType : MapType) (mapPerm : Nat) : MmM MapArea :=
  let vpnStart := VirtAddr.floor startVa
  let vpnEnd := VirtAddr.ceil endVa
  if vpnStart ≤ vpnEnd then return { vpnStart, vpnEnd, dataFrames := [], mapType, mapPerm }
  else throw .badRange

def fromAnother (another : MapArea) : MapArea := { another with dataFrames := [] }

/-- The frames owned by the area. -/
def frames (self : MapArea) : List Nat := self.dataFrames.map Prod.snd

def mapOne (self : MapArea) (table : PageTable) (vpn : Nat) : MmM (MapArea × PageTable) :=
  match self.mapType with
  | .identical => do return (self, ← table.map vpn vpn self.mapPerm)
  | .framed => do
    let frame ← Mm.frameAlloc
    return ({ self with dataFrames := self.dataFrames ++ [(vpn, frame)] }, ← table.map vpn frame self.mapPerm)

def mapFrom : Nat → Nat → MapArea → PageTable → MmM (MapArea × PageTable)
  | 0, _, self, table => pure (self, table)
  | count + 1, vpn, self, table => do
    let (self, table) ← self.mapOne table vpn
    mapFrom count (vpn + 1) self table

def map (self : MapArea) (table : PageTable) : MmM (MapArea × PageTable) :=
  mapFrom (self.vpnEnd - self.vpnStart) self.vpnStart self table

/-- Removes the page from the area, dropping its frame, and then from the table. -/
def unmapOne (self : MapArea) (table : PageTable) (vpn : Nat) : MmM MapArea := do
  match self.mapType with
  | .identical =>
    table.unmap vpn
    return self
  | .framed =>
    match self.dataFrames.find? fun pair => pair.1 == vpn with
    | none =>
      table.unmap vpn
      return self
    | some (_, frame) =>
      Mm.frameDealloc frame
      table.unmap vpn
      return { self with dataFrames := self.dataFrames.filter fun pair => pair.1 != vpn }

def unmapFrom : Nat → Nat → MapArea → PageTable → MmM MapArea
  | 0, _, self, _ => pure self
  | count + 1, vpn, self, table => do
    let self ← self.unmapOne table vpn
    unmapFrom count (vpn + 1) self table

def unmap (self : MapArea) (table : PageTable) : MmM MapArea :=
  unmapFrom (self.vpnEnd - self.vpnStart) self.vpnStart self table

end MapArea

/-- The frames the kernel's own page table maps writable and that page-table entries can designate. -/
def Layout.writable (layout : Layout) (ppn : Nat) : Bool := layout.firstFrame ≤ ppn && ppn < lastFrame

/-- Copies `bytes` to the start of frame `ppn`; the kernel faults outside the memory it maps. -/
def writeFrame (layout : Layout) (ppn : Nat) (bytes : List UInt8) : MmM Unit :=
  if bytes = [] ∨ layout.writable ppn then
    modify fun mm => { mm with mem := mm.mem.store (PhysAddr.ofPpn ppn) bytes }
  else throw .kernelStore

/-- The loop of `MapArea::copy_data`, which runs at least once; `fuel` bounds the pages after the first. -/
def copyDataFrom (layout : Layout) (table : PageTable) : Nat → Nat → List UInt8 → MmM Unit
  | fuel, vpn, data => do
    match ← Program.read fun mm : Mm => table.translate mm.mem vpn with
    | none => throw .untranslated
    | some pte =>
      writeFrame layout pte.ppn (data.take pageSize)
      match fuel with
      | 0 => return ()
      | fuel + 1 =>
        if data.length ≤ pageSize then return ()
        else copyDataFrom layout table fuel (vpn + 1) (data.drop pageSize)

def MapArea.copyData (self : MapArea) (layout : Layout) (table : PageTable) (data : List UInt8) : MmM Unit :=
  if self.mapType = .framed then copyDataFrom layout table (data.length / pageSize) self.vpnStart data
  else throw .mapType

structure MemorySet where
  pageTable : PageTable
  areas : List MapArea
  deriving DecidableEq, Repr

namespace MemorySet

def newBare : MmM MemorySet := do return ⟨← PageTable.new, []⟩

def token (self : MemorySet) : Nat := self.pageTable.token

def translate (self : MemorySet) (mem : PhysMem) (vpn : Nat) : Option PageTableEntry :=
  self.pageTable.translate mem vpn

def dataFrames (self : MemorySet) : List Nat := self.areas.flatMap MapArea.frames

/-- All frames owned by the address space, in drop order. -/
def frames (self : MemorySet) : List Nat := self.pageTable.frames ++ self.dataFrames

def push (self : MemorySet) (layout : Layout) (area : MapArea) (data : Option (List UInt8)) : MmM MemorySet := do
  let (area, pageTable) ← area.map self.pageTable
  match data with
  | none => return ⟨pageTable, self.areas ++ [area]⟩
  | some data =>
    area.copyData layout pageTable data
    return ⟨pageTable, self.areas ++ [area]⟩

def insertFramedArea (self : MemorySet) (layout : Layout) (startVa endVa perm : Nat) : MmM MemorySet := do
  let area ← MapArea.new startVa endVa .framed perm
  self.push layout area none

/-- Unmaps and drops the first area that starts at `startVpn`, if there is one. -/
def removeAreaWithStartVpn (self : MemorySet) (startVpn : Nat) : MmM MemorySet :=
  match self.areas.findIdx? fun area => area.vpnStart == startVpn with
  | none => return self
  | some idx => do
    match self.areas[idx]? with
    | none => return self
    | some area =>
      let area ← area.unmap self.pageTable
      Mm.frameDeallocAll area.frames
      return { self with areas := self.areas.eraseIdx idx }

def mapTrampoline (self : MemorySet) (layout : Layout) : MmM MemorySet := do
  let vpn ← Program.lift (VirtAddr.toVpn (VirtAddr.ofUsize trampoline))
  let ppn ← Program.lift (PhysAddr.toPpn (PhysAddr.ofUsize layout.strampoline))
  return { self with pageTable := ← self.pageTable.map vpn ppn (PTEFlags.R ||| PTEFlags.X) }

def pushIdentical (self : MemorySet) (layout : Layout) (l r perm : Nat) : MmM MemorySet := do
  let area ← MapArea.new (VirtAddr.ofUsize l) (VirtAddr.ofUsize r) .identical perm
  self.push layout area none

/-- The kernel's address space, without kernel stacks. -/
def newKernel (layout : Layout) : MmM MemorySet := do
  let self ← newBare
  let self ← self.mapTrampoline layout
  let self ← self.pushIdentical layout layout.stext layout.etext (PTEFlags.R ||| PTEFlags.X)
  let self ← self.pushIdentical layout layout.srodata layout.erodata PTEFlags.R
  let self ← self.pushIdentical layout layout.sdata layout.edata (PTEFlags.R ||| PTEFlags.W)
  let self ← self.pushIdentical layout layout.sbssWithStack layout.ebss (PTEFlags.R ||| PTEFlags.W)
  let self ← self.pushIdentical layout layout.ekernel memoryEnd (PTEFlags.R ||| PTEFlags.W)
  let self ← self.pushIdentical layout 0x00100000 (0x00100000 + 0x002000) (PTEFlags.R ||| PTEFlags.W)
  self.pushIdentical layout 0x10001000 (0x10001000 + 0x001000) (PTEFlags.R ||| PTEFlags.W)

end MemorySet

/-! ### Program images -/

/-- A program header as `xmas_elf` returns it; `load` is its type, absent when the type is invalid. -/
structure ProgramHeader where
  load : Option Bool
  virtualAddr : Nat
  memSize : Nat
  offset : Nat
  fileSize : Nat
  isRead : Bool
  isWrite : Bool
  isExecute : Bool
  deriving DecidableEq, Repr

/-- A parsed ELF file; a header that cannot be read is absent. -/
structure ElfFile where
  magic : List UInt8
  programHeaders : List (Option ProgramHeader)
  entryPoint : Nat
  deriving DecidableEq, Repr

namespace MemorySet

def sliceInput (input : List UInt8) (start stop : Nat) : Except Fault (List UInt8) :=
  if start ≤ stop ∧ stop ≤ input.length then .ok ((input.drop start).take (stop - start)) else .error .index

def segmentPerm (ph : ProgramHeader) : Nat :=
  PTEFlags.U ||| (if ph.isRead then PTEFlags.R else 0) ||| (if ph.isWrite then PTEFlags.W else 0) |||
    (if ph.isExecute then PTEFlags.X else 0)

/-- Maps one loadable segment; also returns the page after it. -/
def pushSegment (self : MemorySet) (layout : Layout) (input : List UInt8) (ph : ProgramHeader) :
    MmM (MemorySet × Nat) := do
  let startVa := VirtAddr.ofUsize ph.virtualAddr
  let endVa := VirtAddr.ofUsize ((ph.virtualAddr + ph.memSize) % 2 ^ 64)
  let area ← MapArea.new startVa endVa .framed (segmentPerm ph)
  let data ← Program.lift (sliceInput input ph.offset ((ph.offset + ph.fileSize) % 2 ^ 64))
  return (← self.push layout area (some data), area.vpnEnd)

def pushSegments (layout : Layout) (input : List UInt8) :
    List (Option ProgramHeader) → MemorySet → Nat → MmM (MemorySet × Nat)
  | [], self, maxEndVpn => pure (self, maxEndVpn)
  | header :: rest, self, maxEndVpn => do
    match header with
    | none => throw .badElf
    | some ph =>
      match ph.load with
      | none => throw .badElf
      | some false => pushSegments layout input rest self maxEndVpn
      | some true =>
        let (self, maxEndVpn) ← self.pushSegment layout input ph
        pushSegments layout input rest self maxEndVpn

def fromElf (layout : Layout) (parse : List UInt8 → Option ElfFile) (input : List UInt8) :
    MmM (MemorySet × Nat × Nat) := do
  let self ← newBare
  let self ← self.mapTrampoline layout
  match parse input with
  | none => throw .badElf
  | some elf =>
    if elf.magic ≠ [0x7f, 0x45, 0x4c, 0x46] then throw .badElf
    else
      let (self, maxEndVpn) ← pushSegments layout input elf.programHeaders self 0
      -- one guard page between the program and its stack
      let userStackBottom := (VirtAddr.toUsize (VirtAddr.ofVpn maxEndVpn) + pageSize) % 2 ^ 64
      let userStackTop := (userStackBottom + userStackSize) % 2 ^ 64
      let stack ← MapArea.new (VirtAddr.ofUsize userStackBottom) (VirtAddr.ofUsize userStackTop) .framed
        (PTEFlags.R ||| PTEFlags.W ||| PTEFlags.U)
      let self ← self.push layout stack none
      let trap ← MapArea.new (VirtAddr.ofUsize trapContext) (VirtAddr.ofUsize trampoline) .framed
        (PTEFlags.R ||| PTEFlags.W)
      let self ← self.push layout trap none
      return (self, userStackTop, elf.entryPoint)

def copyPages (source target : MemorySet) : Nat → Nat → MmM Unit
  | 0, _ => pure ()
  | count + 1, vpn => do
    match ← Program.read fun mm : Mm => (source.translate mm.mem vpn, target.translate mm.mem vpn) with
    | (some src, some dst) =>
      modify fun mm => { mm with mem := copyFrame mm.mem dst.ppn src.ppn }
      copyPages source target count (vpn + 1)
    | _ => throw .untranslated

def copyAreas (layout : Layout) (source : MemorySet) : List MapArea → MemorySet → MmM MemorySet
  | [], self => pure self
  | area :: rest, self => do
    let self ← self.push layout area.fromAnother none
    copyPages source self (area.vpnEnd - area.vpnStart) area.vpnStart
    copyAreas layout source rest self

def fromExistedUser (layout : Layout) (source : MemorySet) : MmM MemorySet := do
  let self ← newBare
  let self ← self.mapTrampoline layout
  copyAreas layout source source.areas self

/-- `areas.clear()`: the data frames are given back, the page table stays. -/
def recycleDataPages (self : MemorySet) : MmM MemorySet := do
  Mm.frameDeallocAll self.dataFrames
  return { self with areas := [] }

def drop (self : MemorySet) : MmM Unit := Mm.frameDeallocAll self.frames

end MemorySet

end SecureIpc
