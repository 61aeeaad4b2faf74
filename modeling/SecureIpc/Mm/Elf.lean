import SecureIpc.Lib.ByteString
import SecureIpc.Mm.MemorySet

/-!
64-bit little-endian ELF files, read as `xmas_elf` reads them: the entry point and the program headers
stand at fixed places in the file.
-/

namespace SecureIpc
open Lib

def fieldAt (input : List UInt8) (offset size : Nat) : Nat := ofBytes (slice input offset size)

/-- The program header at `start`; the types that are neither named nor reserved are invalid. -/
def ProgramHeader.read (input : List UInt8) (start : Nat) : Option ProgramHeader :=
  if start + 56 ≤ input.length then
    let type := fieldAt input start 4
    let flags := fieldAt input (start + 4) 4
    some
      { load := if type ≤ 7 ∨ 0x60000000 ≤ type ∧ type < 0x80000000 then some (type == 1) else none
        virtualAddr := fieldAt input (start + 16) 8
        memSize := fieldAt input (start + 40) 8
        offset := fieldAt input (start + 8) 8
        fileSize := fieldAt input (start + 32) 8
        isRead := flags.testBit 2
        isWrite := flags.testBit 1
        isExecute := flags.testBit 0 }
  else none

def elfMagic : List UInt8 := [0x7f, 0x45, 0x4c, 0x46]

def ElfFile.read (input : List UInt8) : Option ElfFile :=
  if 64 ≤ input.length ∧ slice input 0 6 = elfMagic ++ [2, 1] then
    some
      { magic := slice input 0 4
        programHeaders := (List.range (fieldAt input 56 2)).map fun i => ProgramHeader.read input (fieldAt input 32 8 + i * fieldAt input 54 2)
        entryPoint := fieldAt input 24 8 }
  else none

/-! ### Executables with one segment -/

/-- A RISC-V executable that starts at `0x10000` and has one program header, behind the ELF header. -/
def elfHeader : List UInt8 :=
  elfMagic ++ [2, 1, 1, 0, 0, 0, 0, 0, 0, 0, 0, 0] ++
    [2, 0, 0xf3, 0, 1, 0, 0, 0, 0, 0, 1, 0, 0, 0, 0, 0, 64, 0, 0, 0, 0, 0, 0, 0, 0, 0, 0, 0, 0, 0, 0, 0] ++
    [0, 0, 0, 0, 64, 0, 56, 0, 1, 0, 0, 0, 0, 0, 0, 0]

/-- A segment for `0x10000` whose data stand behind the two headers. -/
def segmentHeader (flags memSize fileSize : Nat) : List UInt8 :=
  toBytes 4 1 ++ (toBytes 4 flags ++ (toBytes 8 120 ++ (toBytes 8 0x10000 ++ (toBytes 8 0x10000 ++ (toBytes 8 fileSize ++
    (toBytes 8 memSize ++ toBytes 8 8))))))

def executable (flags memSize : Nat) (data : List UInt8) : List UInt8 := elfHeader ++ (segmentHeader flags memSize data.length ++ data)

def executableElf (flags memSize fileSize : Nat) : ElfFile where
  magic := elfMagic
  programHeaders :=
    [some { load := some true, virtualAddr := 0x10000, memSize, offset := 120, fileSize
            isRead := flags.testBit 2, isWrite := flags.testBit 1, isExecute := flags.testBit 0 }]
  entryPoint := 0x10000

section
variable {flags memSize offset size : Nat} {data : List UInt8}

theorem executable_length : (executable flags memSize data).length = 120 + data.length := by
  simp [executable, elfHeader, elfMagic, segmentHeader]
  omega

theorem slice_elfHeader (inside : offset + size ≤ 64) : slice (executable flags memSize data) offset size = slice elfHeader offset size := by
  have length : elfHeader.length = 64 := by decide
  rw [executable, slice, slice, List.drop_append_of_le_length (by omega), List.take_append_of_le_length (by rw [List.length_drop]; omega)]

theorem slice_segmentHeader (inside : offset + size ≤ 56) :
    slice (executable flags memSize data) (64 + offset) size = slice (segmentHeader flags memSize data.length) offset size := by
  have length : (segmentHeader flags memSize data.length).length = 56 := by simp [segmentHeader]
  rw [executable, slice, slice, show 64 + offset = elfHeader.length + offset from rfl, List.drop_length_add_append,
    List.drop_append_of_le_length (by omega), List.take_append_of_le_length (by rw [List.length_drop]; omega)]

theorem ElfFile.read_executable (bits : flags < 256 ^ 4) (pages : memSize < 256 ^ 8) (small : data.length < 256 ^ 8) :
    ElfFile.read (executable flags memSize data) = some (executableElf flags memSize data.length) := by
  have length := @executable_length flags memSize data
  have header : ProgramHeader.read (executable flags memSize data) 64 = some
      { load := some true, virtualAddr := 0x10000, memSize, offset := 120, fileSize := data.length
        isRead := flags.testBit 2, isWrite := flags.testBit 1, isExecute := flags.testBit 0 } := by
    have field : ∀ offset size value, offset + size ≤ 56 → slice (segmentHeader flags memSize data.length) offset size = toBytes size value →
        value < 256 ^ size → fieldAt (executable flags memSize data) (64 + offset) size = value := by
      intro offset size value inside here fits
      rw [fieldAt, slice_segmentHeader inside, here, ofBytes_toBytes, Nat.mod_eq_of_lt fits]
    rw [ProgramHeader.read, if_pos (by omega), field 0 4 1 (by decide) rfl (by decide), field 4 4 flags (by decide) rfl bits,
      field 8 8 120 (by decide) rfl (by decide), field 16 8 0x10000 (by decide) rfl (by decide), field 32 8 data.length (by decide) rfl small,
      field 40 8 memSize (by decide) rfl pages]
    rfl
  have field : ∀ offset size, offset + size ≤ 64 → fieldAt (executable flags memSize data) offset size = fieldAt elfHeader offset size := by
    intro offset size inside
    rw [fieldAt, slice_elfHeader inside, fieldAt]
  rw [ElfFile.read, slice_elfHeader (by decide), slice_elfHeader (by decide), field 56 2 (by decide), field 32 8 (by decide),
    field 54 2 (by decide), field 24 8 (by decide), if_pos ⟨by omega, by decide⟩, executableElf, ← header]
  rfl

end

end SecureIpc
