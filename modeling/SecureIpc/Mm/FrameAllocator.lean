import SecureIpc.Mm.Address

/-! The frame allocator, and physical memory together with it. -/

namespace SecureIpc
open Lib

def memoryEnd : Nat := 0x88000000

/-- Frames from `current` to `stop` were never handed out; `recycled` is a stack, its top first. -/
structure StackFrameAllocator where
  current : Nat
  stop : Nat
  recycled : List Nat
  deriving DecidableEq, Repr

namespace StackFrameAllocator

def new : StackFrameAllocator := ⟨0, 0, []⟩

def init (self : StackFrameAllocator) (l r : Nat) : StackFrameAllocator := { self with current := l, stop := r }

def alloc (self : StackFrameAllocator) : Option Nat × StackFrameAllocator :=
  match self.recycled with
  | ppn :: recycled => (some (PhysPageNum.ofUsize ppn), { self with recycled })
  | [] =>
    if self.current = self.stop then (none, self)
    else (some (PhysPageNum.ofUsize self.current), { self with current := self.current + 1 })

def dealloc (self : StackFrameAllocator) (ppn : Nat) : Except Fault StackFrameAllocator :=
  if self.current ≤ ppn ∨ self.recycled.contains ppn then .error .frameNotAllocated
  else .ok { self with recycled := ppn :: self.recycled }

end StackFrameAllocator

structure Mm where
  mem : PhysMem
  frames : StackFrameAllocator

abbrev MmM := Program Mm Fault

def zeroFrame (mem : PhysMem) (ppn : Nat) : PhysMem := fun x => if x / pageSize = ppn then 0 else mem x

def copyFrame (mem : PhysMem) (dst src : Nat) : PhysMem := fun x =>
  if x / pageSize = dst then mem (src * pageSize + x % pageSize) else mem x

namespace Mm

/-- `frame_alloc().unwrap()`; a new `FrameTracker` clears its frame. -/
def frameAlloc : MmM Nat := fun mm =>
  match mm.frames.alloc with
  | (some ppn, frames) => .ok (ppn, { mem := zeroFrame mm.mem ppn, frames })
  | (none, _) => .error .outOfFrames

def frameDealloc (ppn : Nat) : MmM Unit := fun mm =>
  match mm.frames.dealloc ppn with
  | .ok frames => .ok ((), { mm with frames })
  | .error halt => .error halt

def frameDeallocAll : List Nat → MmM Unit
  | [] => pure ()
  | ppn :: rest => do
    frameDealloc ppn
    frameDeallocAll rest

def writePte (ppn index bits : Nat) : MmM Unit :=
  modify fun mm => { mm with mem := mm.mem.writeWord (PhysAddr.ofPpn ppn + 8 * index) bits }

end Mm

end SecureIpc
