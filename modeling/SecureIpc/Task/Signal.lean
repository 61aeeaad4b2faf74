import SecureIpc.Machine
import SecureIpc.Lib.Bytes

/-! Signal sets and signal actions. All 32 bits are signals, so `from_bits` always succeeds. -/

namespace SecureIpc
open Lib

def maxSig : Nat := 31

abbrev SignalFlags := BitVec 32

namespace SignalFlags

def SIGDEF : SignalFlags := 1 <<< 0
def SIGINT : SignalFlags := 1 <<< 2
def SIGILL : SignalFlags := 1 <<< 4
def SIGABRT : SignalFlags := 1 <<< 6
def SIGFPE : SignalFlags := 1 <<< 8
def SIGKILL : SignalFlags := 1 <<< 9
def SIGSEGV : SignalFlags := 1 <<< 11
def SIGCONT : SignalFlags := 1 <<< 18
def SIGSTOP : SignalFlags := 1 <<< 19

def contains (self other : SignalFlags) : Bool := self &&& other == other

def fromBits (bits : BitVec 32) : Option SignalFlags := some bits

def checkError (self : SignalFlags) : Option (Int × String) :=
  if contains self SIGINT then some (-2, "Killed, SIGINT=2")
  else if contains self SIGILL then some (-4, "Illegal Instruction, SIGILL=4")
  else if contains self SIGABRT then some (-6, "Aborted, SIGABRT=6")
  else if contains self SIGFPE then some (-8, "Erroneous Arithmetic Operation, SIGFPE=8")
  else if contains self SIGKILL then some (-9, "Killed, SIGKILL=9")
  else if contains self SIGSEGV then some (-11, "Segmentation Fault, SIGSEGV=11")
  else none

end SignalFlags

structure SignalAction where
  handler : Nat
  mask : SignalFlags
  deriving DecidableEq, Repr

namespace SignalAction

def default : SignalAction := ⟨0, 40⟩

def size : Nat := 16

/-- The 16 bytes of the `repr(C, align(16))` value; the four padding bytes are written as 0. -/
def bytes (self : SignalAction) : List UInt8 := toBytes 8 self.handler ++ toBytes 4 self.mask.toNat ++ toBytes 4 0

def ofBytes (bytes : List UInt8) : SignalAction :=
  ⟨Lib.ofBytes (bytes.take 8), BitVec.ofNat 32 (Lib.ofBytes ((bytes.drop 8).take 4))⟩

end SignalAction

def SignalActions.default : List SignalAction := List.replicate (maxSig + 1) .default

end SecureIpc
