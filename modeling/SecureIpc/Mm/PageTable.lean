import Mathlib.Algebra.GroupWithZero.Nat
import SecureIpc.Mm.Address

/-!
Page-table entries and table walks, the validation of user ranges, and the page-segmented buffers
through which the kernel reaches user memory. Table nodes live in physical memory; a walk reads
them from there.
-/

namespace SecureIpc
open Lib

def maxStrLen : Nat := 0x10000

def maxArgv : Nat := 64

def userVaLimit : Nat := 2 ^ 38

/-! The eight flag bits of an entry; `contains` as in `bitflags`. -/

namespace PTEFlags

def V : Nat := 1
def R : Nat := 2
def W : Nat := 4
def X : Nat := 8
def U : Nat := 16

def contains (self other : Nat) : Bool := self &&& other == other

end PTEFlags

structure PageTableEntry where
  bits : Nat
  deriving DecidableEq, Repr

namespace PageTableEntry

def new (ppn : Nat) (flags : Nat) : PageTableEntry := ⟨ppn <<< 10 ||| flags⟩

def empty : PageTableEntry := ⟨0⟩

def ppn (self : PageTableEntry) : Nat := PhysPageNum.ofUsize (self.bits / 2 ^ 10 % 2 ^ 44)

/-- All eight bits are flags, so `from_bits(..).unwrap()` never fails. -/
def flags (self : PageTableEntry) : Nat := self.bits % 2 ^ 8

def isValid (self : PageTableEntry) : Bool := PTEFlags.contains self.flags PTEFlags.V

end PageTableEntry

def pteAddr (ppn index : Nat) : Nat := PhysAddr.ofPpn ppn + 8 * index

/-- Entry `index` of the table node in frame `ppn`. -/
def readPte (mem : PhysMem) (ppn index : Nat) : PageTableEntry :=
  ⟨mem.readWord (pteAddr ppn index)⟩

structure PageTable where
  rootPpn : Nat
  frames : List Nat
  deriving DecidableEq, Repr

namespace PageTable

/-- The table a `satp` token denotes; it owns no frames. -/
def fromToken (satp : Nat) : PageTable := ⟨PhysPageNum.ofUsize (satp % 2 ^ 44), []⟩

def child (mem : PhysMem) (ppn index : Nat) : Option Nat :=
  if (readPte mem ppn index).isValid then some (readPte mem ppn index).ppn else none

def findPte (self : PageTable) (mem : PhysMem) (vpn : Nat) : Option Nat := do
  let (i₀, i₁, i₂) := VirtPageNum.indexes vpn
  let ppn ← child mem self.rootPpn i₀
  let ppn ← child mem ppn i₁
  return pteAddr ppn i₂

def translate (self : PageTable) (mem : PhysMem) (vpn : Nat) : Option PageTableEntry :=
  (self.findPte mem vpn).map fun addr => ⟨mem.readWord addr⟩

def translateVa (self : PageTable) (mem : PhysMem) (va : Nat) : Option Nat :=
  (self.translate mem (VirtAddr.floor va)).map fun pte =>
    PhysAddr.ofUsize (PhysAddr.ofPpn pte.ppn + VirtAddr.pageOffset va)

def token (self : PageTable) : Nat := 8 * 2 ^ 60 + self.rootPpn

end PageTable

/-! ### Validation of user ranges -/

/-- One page of the check: mapped, with `U`, and with `W` or `R` as the access requires. -/
def checkUserPage (table : PageTable) (mem : PhysMem) (write : Bool) (cur : Nat) : Bool :=
  match table.translate mem (VirtAddr.floor (VirtAddr.ofUsize cur)) with
  | none => false
  | some pte =>
    if !PTEFlags.contains pte.flags PTEFlags.U then false
    else if write then PTEFlags.contains pte.flags PTEFlags.W
    else PTEFlags.contains pte.flags PTEFlags.R

/-- The page loop of `check_user_range`; `fuel` bounds the number of pages. -/
def checkUserPages (table : PageTable) (mem : PhysMem) (write : Bool) (stop : Nat) : Nat → Nat → Bool
  | 0, _ => true
  | fuel + 1, cur =>
    if cur < stop then
      if checkUserPage table mem write cur then
        let pageEnd := cur / pageSize * pageSize + pageSize
        checkUserPages table mem write stop fuel (min pageEnd stop)
      else false
    else true

def checkUserRange (mem : PhysMem) (token ptr len : Nat) (write : Bool) : Bool :=
  if len = 0 then true
  else match checkedAdd ptr len with
    | none => false
    | some stop =>
      if userVaLimit ≤ ptr ∨ userVaLimit < stop then false
      else checkUserPages (.fromToken token) mem write stop len ptr

/-- The part of page `ppn` from `startVa` to `endVa`, where an aligned end is the end of the page. -/
def pageSegment (ppn startVa endVa : Nat) : Except Fault Slice :=
  if VirtAddr.pageOffset endVa = 0 then PhysPageNum.bytes ppn (VirtAddr.pageOffset startVa) pageSize
  else PhysPageNum.bytes ppn (VirtAddr.pageOffset startVa) (VirtAddr.pageOffset endVa)

/-- The translation loop of `try_translated_byte_buffer`; `fuel` bounds the number of segments. -/
def translateSegments (table : PageTable) (mem : PhysMem) (stop : Nat) : Nat → Nat → Except Fault (List Slice)
  | 0, _ => .ok []
  | fuel + 1, start =>
    if start < stop then
      let startVa := VirtAddr.ofUsize start
      let vpn := VirtAddr.floor startVa
      match table.translate mem vpn with
      | none => .error .untranslated
      | some pte => do
        let endVa := min (VirtAddr.ofVpn (vpn + 1)) (VirtAddr.ofUsize stop)
        let segment ← pageSegment pte.ppn startVa endVa
        let rest ← translateSegments table mem stop fuel (VirtAddr.toUsize endVa)
        return segment :: rest
    else .ok []

def tryTranslatedByteBuffer (mem : PhysMem) (token ptr len : Nat) (write : Bool) :
    Except Fault (Option (List Slice)) :=
  if !checkUserRange mem token ptr len write then .ok none
  else do
    let stop ← addWord ptr len
    return some (← translateSegments (.fromToken token) mem stop len ptr)

/-! ### User strings -/

/-- `b as char` appended to a `String`: bytes from 0x80 on take two bytes. -/
def utf8OfLatin1 (byte : UInt8) : Utf8 :=
  if byte < 0x80 then [byte] else [(0xC0 : UInt8) ||| (byte >>> 6), (0x80 : UInt8) ||| (byte &&& 0x3F)]

/-- The page loop of `try_translated_str`; `fuel` bounds the number of pages. -/
def scanString (table : PageTable) (mem : PhysMem) (limit : Nat) : Nat → Nat → Utf8 → Except Fault (Option Utf8)
  | 0, _, _ => .ok none
  | fuel + 1, cur, string =>
    if cur < limit then
      match table.translate mem (VirtAddr.floor (VirtAddr.ofUsize cur)) with
      | none => .ok none
      | some pte =>
        if !PTEFlags.contains pte.flags PTEFlags.U || !PTEFlags.contains pte.flags PTEFlags.R then .ok none
        else do
          let offset := cur % pageSize
          let chunk := min (pageSize - offset) (limit - cur)
          let slice ← PhysPageNum.bytes pte.ppn offset (offset + chunk)
          let bytes := mem.load slice.base slice.len
          match bytes.findIdx? (· == 0) with
          | some z => return some (string ++ (bytes.take z).flatMap utf8OfLatin1)
          | none => scanString table mem limit fuel (cur + chunk) (string ++ bytes.flatMap utf8OfLatin1)
    else .ok none

def tryTranslatedStr (mem : PhysMem) (token start maxLen : Nat) : Except Fault (Option Utf8) :=
  if start = 0 ∨ maxLen = 0 then .ok none
  else match checkedAdd start maxLen with
    | none => .ok none
    | some limit =>
      if userVaLimit < limit then .ok none
      else scanString (.fromToken token) mem limit maxLen start []

/-- `try_translated_refmut::<T>` for a `T` of `size` bytes aligned to `align`: its physical address. -/
def tryTranslatedRefmut (mem : PhysMem) (token addr size align : Nat) : Option Nat :=
  if size = 0 ∨ addr = 0 ∨ addr % align ≠ 0 then none
  else match checkedAdd addr size with
    | none => none
    | some stop =>
      if userVaLimit < stop then none
      else if addr / pageSize ≠ (stop - 1) / pageSize then none
      else if !checkUserRange mem token addr size true then none
      else (PageTable.fromToken token).translateVa mem (VirtAddr.ofUsize addr)

/-! ### User buffers -/

structure UserBuffer where
  buffers : List Slice
  deriving DecidableEq, Repr

namespace UserBuffer

def len (self : UserBuffer) : Nat := (self.buffers.map Slice.len).sum

def addrs (self : UserBuffer) : List Nat := self.buffers.flatMap Slice.addrs

end UserBuffer

structure UserBufferIterator where
  buffers : List Slice
  currentBuffer : Nat
  currentIdx : Nat
  deriving DecidableEq, Repr

def UserBuffer.intoIter (self : UserBuffer) : UserBufferIterator := ⟨self.buffers, 0, 0⟩

/-- The next byte reference; an empty segment is an index out of range. -/
def UserBufferIterator.next (self : UserBufferIterator) :
    Except Fault (Option Nat × UserBufferIterator) :=
  match self.buffers[self.currentBuffer]? with
  | none => .ok (none, self)
  | some buffer =>
    if buffer.len ≤ self.currentIdx then .error .index
    else
      let ref := buffer.base + self.currentIdx
      if self.currentIdx + 1 = buffer.len then
        .ok (some ref, { self with currentIdx := 0, currentBuffer := self.currentBuffer + 1 })
      else .ok (some ref, { self with currentIdx := self.currentIdx + 1 })

end SecureIpc
