import SecureIpc.Mm.PageTable
import SecureIpc.Mm.FrameAllocator
import SecureIpc.Security.Api

/-! Copies between the kernel and user memory, with every user pointer validated first. -/

namespace SecureIpc
open Lib

def storeSegments : List Slice → List UInt8 → PhysMem → PhysMem
  | [], _, mem => mem
  | segment :: rest, bytes, mem =>
    storeSegments rest (bytes.drop segment.len) (mem.store segment.base (bytes.take segment.len))

def loadSegments (mem : PhysMem) (segments : List Slice) : List UInt8 :=
  segments.flatMap fun segment => mem.load segment.base segment.len

def copyFromUser (mem : PhysMem) (token src size : Nat) : Except Fault (IpcResult (List UInt8)) :=
  if size = 0 then .ok (.error .invalidArgument)
  else do
    match ← tryTranslatedByteBuffer mem token src size false with
    | none => return .error .invalidAddress
    | some buffers => return .ok (loadSegments mem buffers)

def copyToUser (token dst : Nat) (bytes : List UInt8) : MmM (IpcResult Unit) :=
  if bytes.length = 0 then return .error .invalidArgument
  else do
    let mem ← Program.read Mm.mem
    match ← Program.lift (tryTranslatedByteBuffer mem token dst bytes.length true) with
    | none => return .error .invalidAddress
    | some buffers =>
      modify fun mm => { mm with mem := storeSegments buffers bytes mm.mem }
      return .ok ()

def copyBytesFromUser (mem : PhysMem) (token src len : Nat) : Except Fault (IpcResult UserBuffer) := do
  match ← tryTranslatedByteBuffer mem token src len false with
  | none => return .error .invalidAddress
  | some buffers => return .ok ⟨buffers⟩

end SecureIpc
