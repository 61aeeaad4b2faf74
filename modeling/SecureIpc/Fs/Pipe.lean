import SecureIpc.Security.Api

/-!
The ring buffer of a pipe, and the kinds of open files. A pipe's ring is found under its object id,
which is never reused, so two endpoints share a ring exactly when their ids agree.
-/

namespace SecureIpc

def ringBufferSize : Nat := 32

inductive RingBufferStatus where
  | full | empty | normal
  deriving DecidableEq, Repr

/-- `writeEnd` names the pipe whose write end the weak pointer designates. -/
structure PipeRingBuffer where
  arr : List UInt8
  head : Nat
  tail : Nat
  status : RingBufferStatus
  writeEnd : Option ResourceId
  deriving DecidableEq, Repr

namespace PipeRingBuffer

def new : PipeRingBuffer :=
  { arr := List.replicate ringBufferSize 0, head := 0, tail := 0, status := .empty, writeEnd := none }

def setWriteEnd (self : PipeRingBuffer) (writeEnd : ResourceId) : PipeRingBuffer :=
  { self with writeEnd := some writeEnd }

def writeByte (self : PipeRingBuffer) (byte : UInt8) : Except Fault PipeRingBuffer := do
  let arr ← setIndex self.arr self.tail byte
  let tail := (self.tail + 1) % ringBufferSize
  return { self with arr, tail, status := if tail = self.head then .full else .normal }

def readByte (self : PipeRingBuffer) : Except Fault (UInt8 × PipeRingBuffer) := do
  let c ← getIndex self.arr self.head
  let head := (self.head + 1) % ringBufferSize
  return (c, { self with head, status := if head = self.tail then .empty else .normal })

def availableRead (self : PipeRingBuffer) : Nat :=
  if self.status = .empty then 0
  else if self.head < self.tail then self.tail - self.head
  else self.tail + ringBufferSize - self.head

def availableWrite (self : PipeRingBuffer) : Nat :=
  if self.status = .full then 0 else ringBufferSize - self.availableRead

end PipeRingBuffer

structure Pipe where
  readable : Bool
  writable : Bool
  object : IpcObject
  deriving DecidableEq, Repr

namespace Pipe

def readEndWithBuffer (object : IpcObject) : Pipe := ⟨true, false, object⟩

def writeEndWithBuffer (object : IpcObject) : Pipe := ⟨false, true, object⟩

end Pipe

/-- An open file; an `OSInode` keeps its offset in the kernel's table at index `inner`. -/
inductive File where
  | stdin
  | stdout
  | inode (readable writable : Bool) (inner : Nat)
  | pipe (endpoint : Pipe)
  deriving DecidableEq, Repr

namespace File

def readable : File → Bool
  | stdin => true
  | stdout => false
  | inode readable _ _ => readable
  | pipe endpoint => endpoint.readable

def writable : File → Bool
  | stdin => false
  | stdout => true
  | inode _ writable _ => writable
  | pipe endpoint => endpoint.writable

def ipcObject : File → Option IpcObject
  | pipe endpoint => some endpoint.object
  | _ => none

def isPipe : File → Bool
  | pipe _ => true
  | _ => false

def isWriteEnd (id : ResourceId) : File → Bool
  | pipe endpoint => endpoint.writable && endpoint.object.id == id
  | _ => false

end File

end SecureIpc
