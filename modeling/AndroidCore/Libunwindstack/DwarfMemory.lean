import AndroidCore.Lib.LittleEndian

/-!
# `AndroidCore.Libunwindstack.DwarfMemory`: reading a DWARF section

The reader of `DwarfMemory.cpp`, with the encodings that the operands of call frame
instructions and of expressions use (`DwarfEncoding.h`). The pointer encodings, which add
an offset to what they read, are in `DwarfEhFrame`.

A section is its bytes, the reader is the offset `cur_offset_` into it, and a read
gives the value and the next offset. Numbers are bit vectors: `Word` is `uint64_t`, and
`Address t` is the `AddressType` the templates are instantiated with.

Signed overflow in a product or a negation wraps around, as on every processor. A shift
by the width of the value or more is different on each of them, so that it is a failure
of its own, `undefined`.
-/

namespace AndroidCore.Libunwindstack

open Lib

/-- The types `AddressType` stands for. -/
inductive AddressType where
  | uint32
  | uint64
deriving DecidableEq, Repr

/-- `sizeof(AddressType)`. -/
def AddressType.size : AddressType → Nat
  | .uint32 => 4
  | .uint64 => 8

/-- The width of the type. -/
def AddressType.bits (t : AddressType) : Nat := 8 * t.size

/-- `uint64_t`. -/
abbrev Word := BitVec 64

/-- A value of type `AddressType`. -/
abbrev Address (t : AddressType) := BitVec t.bits

/-- `DwarfError`. -/
inductive DwarfError where
  | memoryInvalid
  | illegalValue
  | illegalState
  | stackIndexNotValid
  | notImplemented
  | tooManyIterations
  | cfaNotDefined
  | unsupportedVersion
deriving DecidableEq, Repr

/-- How a function of the reader fails: it returns `false`, or its behaviour is not
defined. -/
inductive ReadFailure where
  | unreadable
  | undefined
deriving DecidableEq, Repr

/-- How an interpreter fails: it returns `false` with `last_error_` set, or its
behaviour is not defined. -/
inductive Fault where
  | error (lastError : DwarfError)
  | undefined
deriving DecidableEq, Repr

/-- The interpreters answer a failed read with `DWARF_ERROR_MEMORY_INVALID`. -/
def ReadFailure.toFault : ReadFailure → Fault
  | .unreadable => .error .memoryInvalid
  | .undefined => .undefined

/-- What a read in an interpreter gives. -/
def orFault {α : Type} : Except ReadFailure α → Except Fault α
  | .ok a => .ok a
  | .error e => .error e.toFault

/-- The memory of the process. `read addr size` is `Memory::Read`: the bytes, or, when it
returns false, the bytes it has written to its destination before it gave up. A read of
the own process or of a traced one can stop between two pages. -/
structure Memory where
  read : Word → Nat → Except (List UInt8) (List UInt8)
  length_of_ok : ∀ addr size bs, read addr size = .ok bs → bs.length = size
  length_of_error : ∀ addr size bs, read addr size = .error bs → bs.length ≤ size

/-- A memory that cannot be read at all. -/
def unmapped : Memory where
  read _ _ := .error []
  length_of_ok _ _ _ h := nomatch h
  length_of_error _ _ _ h := by cases h; exact Nat.zero_le _

/-- The memory that holds a section. -/
structure Section where
  bytes : List UInt8
  length_lt : bytes.length < 2 ^ 64

namespace Section

variable (s : Section)

/-- `DwarfMemory::ReadBytes`. -/
def readBytes (curOffset : Word) (numBytes : Nat) : Except ReadFailure (List UInt8 × Word) :=
  if curOffset.toNat + numBytes ≤ s.bytes.length then
    .ok ((s.bytes.drop curOffset.toNat).take numBytes, curOffset + BitVec.ofNat 64 numBytes)
  else
    .error .unreadable

/-- A byte as a `uint64_t`. -/
def byteWord (byte : UInt8) : Word := byte.toBitVec.setWidth 64

/-- The loop of `ReadULEB128` and `ReadSLEB128` over the bytes from the offset on. It
gives `cur_value`, `shift` (seven for every byte read) and the last `byte`. -/
def leb128Loop : List UInt8 → Nat → Word → Except ReadFailure (Word × Nat × UInt8)
  | [], _, _ => .error .unreadable
  | byte :: rest, shift, curValue =>
    if 64 ≤ shift then .error .undefined
    else
      let curValue := curValue + (byteWord (byte &&& 0x7f)) <<< shift
      if byte &&& 0x80 ≠ 0 then leb128Loop rest (shift + 7) curValue
      else .ok (curValue, shift + 7, byte)

/-- `DwarfMemory::ReadULEB128`. -/
def readULEB128 (curOffset : Word) : Except ReadFailure (Word × Word) :=
  match leb128Loop (s.bytes.drop curOffset.toNat) 0 0 with
  | .ok (curValue, shift, _) => .ok (curValue, curOffset + BitVec.ofNat 64 (shift / 7))
  | .error e => .error e

/-- `DwarfMemory::ReadSLEB128`. -/
def readSLEB128 (curOffset : Word) : Except ReadFailure (Word × Word) :=
  match leb128Loop (s.bytes.drop curOffset.toNat) 0 0 with
  | .ok (curValue, shift, byte) =>
    let next := curOffset + BitVec.ofNat 64 (shift / 7)
    if byte &&& 0x40 ≠ 0 then
      -- Negative value, need to sign extend.
      if 64 ≤ shift then .error .undefined
      else .ok (curValue ||| (BitVec.allOnes 64) <<< shift, next)
    else .ok (curValue, next)
  | .error e => .error e

/-- `ReadBytes` into an unsigned variable of `size` bytes. -/
def readUnsigned (size : Nat) (curOffset : Word) : Except ReadFailure (Word × Word) :=
  match s.readBytes curOffset size with
  | .ok (bs, next) => .ok (BitVec.ofNat 64 (leValue bs), next)
  | .error e => .error e

/-- `DwarfMemory::ReadSigned`, for a type of `size` bytes. -/
def readSigned (size : Nat) (curOffset : Word) : Except ReadFailure (Word × Word) :=
  match s.readBytes curOffset size with
  | .ok (bs, next) => .ok ((BitVec.ofNat (8 * size) (leValue bs)).signExtend 64, next)
  | .error e => .error e

end Section

/-- The encodings of the operands. -/
inductive Encoding where
  | absptr
  | uleb128
  | udata1
  | udata2
  | udata4
  | udata8
  | sleb128
  | sdata1
  | sdata2
  | sdata4
  | sdata8
  | block
deriving DecidableEq, Repr

/-- `DwarfMemory::ReadEncodedValue`. A block has no value of its own. -/
def Section.readEncodedValue (t : AddressType) (s : Section) (encoding : Encoding)
    (curOffset : Word) : Except ReadFailure (Word × Word) :=
  match encoding with
  | .absptr => s.readUnsigned t.size curOffset
  | .uleb128 => s.readULEB128 curOffset
  | .sleb128 => s.readSLEB128 curOffset
  | .udata1 => s.readUnsigned 1 curOffset
  | .udata2 => s.readUnsigned 2 curOffset
  | .udata4 => s.readUnsigned 4 curOffset
  | .udata8 => s.readUnsigned 8 curOffset
  | .sdata1 => s.readSigned 1 curOffset
  | .sdata2 => s.readSigned 2 curOffset
  | .sdata4 => s.readSigned 4 curOffset
  | .sdata8 => s.readSigned 8 curOffset
  | .block => .error .unreadable

end AndroidCore.Libunwindstack
