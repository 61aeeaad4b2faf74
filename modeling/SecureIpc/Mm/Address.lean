import SecureIpc.Machine
import SecureIpc.Lib.Bytes

/-!
Sv39 addresses and page numbers. `PhysAddr`, `VirtAddr`, `PhysPageNum` and `VirtPageNum` wrap one
64-bit word each in the source; here they are numbers, and masks with `(1 << n) - 1` are remainders.
-/

namespace SecureIpc
open Lib

def pageSize : Nat := 4096

def trampoline : Nat := 2 ^ 64 - pageSize

def trapContext : Nat := trampoline - pageSize

abbrev PhysMem := Memory

namespace VirtAddr

/-- `VirtAddr::from(usize)` keeps the low 39 bits. -/
def ofUsize (v : Nat) : Nat := v % 2 ^ 39

/-- `usize::from(VirtAddr)` sign-extends from bit 38. -/
def toUsize (self : Nat) : Nat := if 2 ^ 38 ≤ self then self % 2 ^ 39 + (2 ^ 64 - 2 ^ 39) else self

def floor (self : Nat) : Nat := self / pageSize

def ceil (self : Nat) : Nat := if self = 0 then 0 else (self - 1 + pageSize) / pageSize

def pageOffset (self : Nat) : Nat := self % pageSize

def ofVpn (vpn : Nat) : Nat := vpn * pageSize

/-- `VirtPageNum::from(VirtAddr)`, which asserts alignment. -/
def toVpn (self : Nat) : Except Fault Nat :=
  if pageOffset self = 0 then .ok (floor self) else .error .misaligned

end VirtAddr

namespace PhysAddr

def ofUsize (v : Nat) : Nat := v % 2 ^ 56

def floor (self : Nat) : Nat := self / pageSize

def ceil (self : Nat) : Nat := if self = 0 then 0 else (self - 1 + pageSize) / pageSize

def ofPpn (ppn : Nat) : Nat := ppn * pageSize

def toPpn (self : Nat) : Except Fault Nat :=
  if self % pageSize = 0 then .ok (floor self) else .error .misaligned

end PhysAddr

def PhysPageNum.ofUsize (v : Nat) : Nat := v % 2 ^ 44

/-- The three 9-bit page-table indexes of a virtual page, most significant first. -/
def VirtPageNum.indexes (self : Nat) : Nat × Nat × Nat :=
  (self / 2 ^ 18 % 512, self / 2 ^ 9 % 512, self % 512)

/-- A mutable slice of physical memory, `&'static mut [u8]`. -/
structure Slice where
  base : Nat
  len : Nat
  deriving DecidableEq, Repr

def Slice.addrs (self : Slice) : List Nat := (List.range self.len).map fun i => self.base + i

/-- `ppn.get_bytes_array()[start..stop]`, which panics outside the page. -/
def PhysPageNum.bytes (ppn : Nat) (start stop : Nat) : Except Fault Slice :=
  if start ≤ stop ∧ stop ≤ pageSize then .ok ⟨PhysAddr.ofPpn ppn + start, stop - start⟩ else .error .index

end SecureIpc
