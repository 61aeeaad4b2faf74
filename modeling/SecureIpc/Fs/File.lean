import SecureIpc.Task.Process

/-!
Opening files, and the `read` and `write` of each kind of file. A blocking call that has to wait
suspends the running task and returns nothing; it continues at the point recorded in the task.
-/

namespace SecureIpc
open Lib

section
variable {P : Platform}

/-! ### Files of the file system -/

/-- An operation of the file system; a panic inside it stops the kernel. -/
def onDisk {α : Type} (operation : P.fs.State → Option (α × P.fs.State)) : KernelM P α := fun k =>
  match operation k.disk with
  | none => .error .fileSystem
  | some (a, disk) => .ok (a, { k with disk })

def clearInode (inode : P.fs.Inode) : KernelM P Unit := onDisk fun disk => (P.fs.clear inode disk).map ((), ·)

namespace OpenFlags

def WRONLY : BitVec 32 := 1 <<< 0
def RDWR : BitVec 32 := 1 <<< 1
def CREATE : BitVec 32 := 1 <<< 9
def TRUNC : BitVec 32 := 1 <<< 10

def contains (self other : BitVec 32) : Bool := self &&& other == other

def fromBits (bits : BitVec 32) : Option (BitVec 32) :=
  if bits &&& ~~~(WRONLY ||| RDWR ||| CREATE ||| TRUNC) = 0 then some bits else none

/-- Whether the file is readable and writable. -/
def readWrite (self : BitVec 32) : Bool × Bool :=
  if self = 0 then (true, false)
  else if contains self WRONLY then (false, true)
  else (true, true)

end OpenFlags

/-- `open_file`; the flags decide the directions of the `OSInode` made from the result. -/
def openFile (name : Utf8) (flags : BitVec 32) : KernelM P (Option P.fs.Inode) := do
  if OpenFlags.contains flags OpenFlags.CREATE then
    match ← onDisk (P.fs.find name) with
    | some inode =>
      clearInode inode
      return some inode
    | none => onDisk (P.fs.create name)
  else
    match ← onDisk (P.fs.find name) with
    | none => return none
    | some inode =>
      if OpenFlags.contains flags OpenFlags.TRUNC then
        clearInode inode
        return some inode
      else return some inode

/-- The number of 512-byte reads after which the largest file is exhausted. -/
def readAllBound : Nat := 28 + 128 + 128 * 128 + 1

/-- The loop of `OSInode::read_all`; a file longer than `readAllBound` reads does not exist. -/
def readAll (inode : P.fs.Inode) : Nat → Nat → List UInt8 → KernelM P (List UInt8)
  | 0, _, _ => throw .fileSystem
  | fuel + 1, offset, v => do
    let bytes ← onDisk (P.fs.readAt inode offset 512)
    let bytes := bytes.take 512
    if bytes.length = 0 then return v else readAll inode fuel (offset + bytes.length) (v ++ bytes)

def newInode (inode : P.fs.Inode) : KernelM P Nat := do
  let inner ← Program.read Kernel.nextInode
  modify fun k => { k with inodes := Kernel.set k.inodes inner (some ⟨0, inode⟩), nextInode := inner + 1 }
  return inner

def inodeInner (inner : Nat) : KernelM P (OSInodeInner P) := do
  match ← Program.read fun k : Kernel P => k.inodes inner with
  | none => throw .dangling
  | some state => return state

def setInodeOffset (inner : Nat) (state : OSInodeInner P) (offset : Nat) : KernelM P Unit :=
  modify fun k => { k with inodes := Kernel.set k.inodes inner (some { state with offset }) }

def readInode (inner : Nat) : List Slice → Nat → KernelM P Nat
  | [], total => return total
  | slice :: rest, total => do
    let state ← inodeInner inner
    let bytes ← onDisk (P.fs.readAt state.inode state.offset slice.len)
    let bytes := bytes.take slice.len
    modify fun k => k.setMem (k.mm.mem.store slice.base bytes)
    if bytes.length = 0 then return total
    else
      setInodeOffset inner state (state.offset + bytes.length)
      readInode inner rest (total + bytes.length)

def writeInode (inner : Nat) : List Slice → Nat → KernelM P Nat
  | [], total => return total
  | slice :: rest, total => do
    let state ← inodeInner inner
    let mem ← userMemory
    let written ← onDisk (P.fs.writeAt state.inode state.offset (mem.load slice.base slice.len))
    if written ≠ slice.len then throw .shortWrite
    else
      setInodeOffset inner state (state.offset + written)
      writeInode inner rest (total + written)

/-! ### Standard input and output -/

/-- `console_getchar`, which returns 0 when there is no input. -/
def consoleGetchar : KernelM P Nat := do
  match ← Program.read Kernel.consoleInput with
  | [] => return 0
  | c :: consoleInput =>
    modify fun k => { k with consoleInput }
    return c

def stdinLoop (buf : UserBuffer) : KernelM P (Option Nat) := do
  let c ← consoleGetchar
  if c = 0 then
    suspendCurrentAndRunNext (.stdinRead buf)
    return none
  else
    match buf.buffers with
    | [] => throw (.fault .index)
    | slice :: _ =>
      modify fun k => k.setMem (k.mm.mem.store slice.base [UInt8.ofNat c])
      return some 1

def stdinRead (buf : UserBuffer) : KernelM P (Option Nat) :=
  if buf.len ≠ 1 then throw .stdinLength else stdinLoop buf

/-- Every segment is printed on its own. -/
def stdoutWrite (buf : UserBuffer) : KernelM P Nat := do
  let mem ← userMemory
  if buf.buffers.all fun slice => isUtf8 (mem.load slice.base slice.len) then return buf.len
  else throw .notUtf8

/-! ### Pipes -/

def allocatePipeId : KernelM P (IpcResult ResourceId) := do
  let id ← Program.read Kernel.nextPipeId
  match checkedAdd id 1 with
  | none => return .error .resourceExhausted
  | some nextPipeId =>
    modify fun k => { k with nextPipeId }
    return .ok id

def makePipe (ownerUid : Uid) : KernelM P (IpcResult (File × File)) := do
  match ← allocatePipeId with
  | .error error => return .error error
  | .ok id =>
    let object : IpcObject := ⟨id, ownerUid⟩
    modify fun k => k.setPipe id (PipeRingBuffer.new.setWriteEnd id)
    return .ok (.pipe (.readEndWithBuffer object), .pipe (.writeEndWithBuffer object))

def pipeBuffer (id : ResourceId) : KernelM P PipeRingBuffer := do
  match ← Program.read fun k : Kernel P => k.pipes id with
  | none => throw .dangling
  | some ring => return ring

/-- Whether the weak pointer to the write end can no longer be upgraded. -/
def allWriteEndsClosed (ring : PipeRingBuffer) : KernelM P Bool := do
  match ring.writeEnd with
  | none => throw .noWriteEnd
  | some id => return !(← Program.read fun k : Kernel P => k.holdsWriteEnd id)

def takeByte (pipe : ResourceId) (ref : Nat) : KernelM P Unit := do
  let ring ← pipeBuffer pipe
  let (byte, after) ← fault ring.readByte
  modify fun k => ((k.setPipe pipe after).setMem (k.mm.mem.store ref [byte])).observe (.took pipe byte ring.status)

def storeByte (pipe : ResourceId) (ref : Nat) : KernelM P Unit := do
  let ring ← pipeBuffer pipe
  let mem ← userMemory
  let after ← fault (ring.writeByte (mem ref))
  modify fun k => (k.setPipe pipe after).observe (.stored pipe (mem ref) ring.status)

/-- The `for` loop of `Pipe::read` and `Pipe::write`, with the transfer of one byte; also says
whether the call returns from inside it. -/
def transferPass (transfer : ResourceId → Nat → KernelM P Unit) : Nat → PipeCall → KernelM P (PipeCall × Bool)
  | 0, call => return (call, false)
  | count + 1, call => do
    match ← fault call.iter.next with
    | (none, iter) => return ({ call with iter }, true)
    | (some ref, iter) =>
      transfer call.object.id ref
      let call := { call with iter, done := call.done + 1 }
      if call.done = call.want then return (call, true) else transferPass transfer count call

def PipeCall.addrs (self : PipeCall) : List Nat := self.iter.buffers.flatMap Slice.addrs

def PipeCall.bytes (self : PipeCall) (mem : PhysMem) : List UInt8 := self.addrs.map mem

def beginTransfer (write : Bool) (call : PipeCall) : KernelM P Unit :=
  modify fun k => k.observe (.began write call.object.id (call.bytes k.mm.mem))

/-- `Pipe::read` or `Pipe::write` returns the number of bytes moved. -/
def endTransfer (write : Bool) (call : PipeCall) : KernelM P (Option Nat) := do
  modify fun k => k.observe (.ended write call.object.id (call.bytes k.mm.mem) call.done (k.holdsWriteEnd call.object.id))
  return some call.done

/-- The loop of `Pipe::read`. After one pass the ring is empty or the call returns, so two rounds
are enough. -/
def pipeReadLoop : Nat → PipeCall → KernelM P (Option Nat)
  | 0, _ => throw .stuck
  | fuel + 1, call => do
    let ring ← pipeBuffer call.object.id
    if ring.availableRead = 0 then
      if ← allWriteEndsClosed ring then endTransfer false call
      else
        suspendCurrentAndRunNext (.pipeRead call)
        return none
    else
      let (call, returned) ← transferPass takeByte ring.availableRead call
      if returned then endTransfer false call else pipeReadLoop fuel call

def pipeWriteLoop : Nat → PipeCall → KernelM P (Option Nat)
  | 0, _ => throw .stuck
  | fuel + 1, call => do
    let ring ← pipeBuffer call.object.id
    if ring.availableWrite = 0 then
      suspendCurrentAndRunNext (.pipeWrite call)
      return none
    else
      let (call, returned) ← transferPass storeByte ring.availableWrite call
      if returned then endTransfer true call else pipeWriteLoop fuel call

def pipeLoopBound : Nat := 2

/-- A `Pipe::read` or `Pipe::write` that starts. -/
def PipeCall.start (endpoint : Pipe) (buf : UserBuffer) (permit : IpcPermit) : PipeCall :=
  { object := endpoint.object, want := buf.len, done := 0, iter := buf.intoIter, permit }

def pipeRead (endpoint : Pipe) (buf : UserBuffer) (permit : IpcPermit) : KernelM P (Option Nat) :=
  if endpoint.readable then do
    beginTransfer false (.start endpoint buf permit)
    pipeReadLoop pipeLoopBound (.start endpoint buf permit)
  else throw .pipeDirection

def pipeWrite (endpoint : Pipe) (buf : UserBuffer) (permit : IpcPermit) : KernelM P (Option Nat) :=
  if endpoint.writable then do
    beginTransfer true (.start endpoint buf permit)
    pipeWriteLoop pipeLoopBound (.start endpoint buf permit)
  else throw .pipeDirection

/-- `File::read` of the files that are no pipes. -/
def File.readPlain (file : File) (buf : UserBuffer) : KernelM P (Option Nat) :=
  match file with
  | .stdin => stdinRead buf
  | .inode _ _ inner => do return some (← readInode inner buf.buffers 0)
  | _ => throw .stdioDirection

def File.writePlain (file : File) (buf : UserBuffer) : KernelM P (Option Nat) :=
  match file with
  | .stdout => do return some (← stdoutWrite buf)
  | .inode _ _ inner => do return some (← writeInode inner buf.buffers 0)
  | _ => throw .stdioDirection

/-- `File::read` on each kind of file; a transfer that is suspended keeps the permit of its system call. -/
def File.read (file : File) (buf : UserBuffer) (permit : IpcPermit) : KernelM P (Option Nat) :=
  match file with
  | .pipe endpoint => pipeRead endpoint buf permit
  | _ => file.readPlain buf

def File.write (file : File) (buf : UserBuffer) (permit : IpcPermit) : KernelM P (Option Nat) :=
  match file with
  | .pipe endpoint => pipeWrite endpoint buf permit
  | _ => file.writePlain buf

end

end SecureIpc
