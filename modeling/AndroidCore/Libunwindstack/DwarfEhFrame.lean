import AndroidCore.Libunwindstack.DwarfMemory

/-!
# `AndroidCore.Libunwindstack.DwarfEhFrame`: the search table of `.eh_frame_hdr`

`DwarfEhFrame` reads the header of the table. The entries are read when a search needs them and
kept in `fde_info_`, here a list of pairs with the last one first.

The numbers of the table are pointer encoded: the low four bits of an encoding say how a number
is stored, and the next three what is added to it. The members that nothing reads after `Init`
and `last_error_` are left out, and a `size_t` is a `uint64_t`.
-/

namespace AndroidCore.Libunwindstack

/-! ### Pointer encodings -/

/-- How `ReadEncodedValue` fails: a read does, or a `CHECK`. -/
inductive PointerFailure where
  | read (failure : ReadFailure)
  | checkFailed
deriving DecidableEq, Repr

/-- A read of the section. -/
def orPointerFailure {α : Type} : Except ReadFailure α → Except PointerFailure α
  | .ok a => .ok a
  | .error e => .error (.read e)

/-- The low four bits of an encoding. What `ReadEncodedValue` has no case for it does not read,
and neither a block. -/
def Encoding.ofByte (encoding : UInt8) : Encoding :=
  match (encoding &&& 0x0f).toNat with
  | 0x00 => .absptr
  | 0x01 => .uleb128
  | 0x02 => .udata2
  | 0x03 => .udata4
  | 0x04 => .udata8
  | 0x09 => .sleb128
  | 0x0a => .sdata2
  | 0x0b => .sdata4
  | 0x0c => .sdata8
  | 0x0d => .udata1
  | 0x0e => .sdata1
  | _ => .block

/-- `DwarfMemory::GetEncodedSize`. -/
def getEncodedSize (t : AddressType) (encoding : UInt8) : Nat :=
  match Encoding.ofByte encoding with
  | .absptr => t.size
  | .udata1 | .sdata1 => 1
  | .udata2 | .sdata2 => 2
  | .udata4 | .sdata4 => 4
  | .udata8 | .sdata8 => 8
  | .uleb128 | .sleb128 | .block => 0

/-- `DwarfMemory::AdjustEncodedValue`. -/
def adjustEncodedValue (pcOffset dataOffset : Word) (encoding : UInt8) (value : Word) :
    Except PointerFailure Word :=
  let relativeTo (offset : Word) :=
    if offset = -1 then .error (.read .unreadable) else .ok (value + offset)
  match encoding.toNat with
  | 0x00 => .ok value
  | 0x10 => relativeTo pcOffset
  | 0x20 => relativeTo (-1) -- `text_offset_` is cleared by `Init`, and never set
  | 0x30 => relativeTo dataOffset
  | 0x40 => relativeTo (-1) -- and so is `func_offset_`
  | 0x50 => .error .checkFailed
  | _ => .error (.read .unreadable)

/-- `DwarfMemory::ReadEncodedValue`, for a pointer encoding. -/
def Section.readEncodedPointer (t : AddressType) (s : Section) (pcOffset dataOffset : Word)
    (encoding : UInt8) (curOffset : Word) : Except PointerFailure (Word × Word) :=
  if encoding = 0xff then .ok (0, curOffset) -- `DW_EH_PE_omit`
  else if encoding = 0x50 then -- `DW_EH_PE_aligned`
    let size := BitVec.ofNat 64 t.size
    if 2 ^ 64 ≤ curOffset.toNat + (t.size - 1) then .error (.read .unreadable)
    else orPointerFailure (s.readUnsigned t.size ((curOffset + (size - 1)) &&& -size))
  else do
    let (value, curOffset) ← orPointerFailure (s.readEncodedValue t (.ofByte encoding) curOffset)
    let value ← adjustEncodedValue pcOffset dataOffset (encoding &&& 0x70) value
    return (value, curOffset)

/-! ### The table -/

/-- `FdeInfo`. -/
structure DwarfEhFrame.FdeInfo (t : AddressType) where
  pc : Address t
  offset : Word
deriving DecidableEq, Repr

/-- `DwarfEhFrame`. -/
structure DwarfEhFrame (t : AddressType) where
  memory : Section
  fdeCount : Word
  tableEncoding : UInt8
  tableEntrySize : Nat
  entriesOffset : Word
  entriesDataOffset : Word
  fdeInfo : List (Word × DwarfEhFrame.FdeInfo t)

/-- How a search ends without an answer: a failure of `ReadEncodedValue` that is not answered
with `false`, a `CHECK`, a null pointer that is dereferenced, or not yet. -/
inductive Stop where
  | pointer (failure : PointerFailure)
  | checkFailed
  | nullDereference
  | running
deriving DecidableEq, Repr

namespace DwarfEhFrame

variable {t : AddressType}

/-- `Init`, of a table in a new `DwarfEhFrame`. -/
def init (t : AddressType) (s : Section) (offset : Word) :
    Except PointerFailure (DwarfEhFrame t) := do
  match ← orPointerFailure (s.readBytes offset 4) with
  | ([version, ptrEncoding, fdeCountEncoding, tableEncoding], curOffset) =>
    if version ≠ 1 then throw (.read .unreadable)
    let (_, curOffset) ← s.readEncodedPointer t curOffset offset ptrEncoding curOffset
    let (fdeCount, curOffset) ←
      s.readEncodedPointer t curOffset offset fdeCountEncoding curOffset
    return {
      memory := s, fdeCount, tableEncoding
      tableEntrySize := getEncodedSize t tableEncoding
      entriesOffset := curOffset, entriesDataOffset := offset, fdeInfo := [] }
  | _ => throw (.read .unreadable)

/-- The entry of an index, read from the table. -/
def readEntry (e : DwarfEhFrame t) (index : Word) : Except PointerFailure (FdeInfo t) := do
  let pcOffset := e.entriesOffset + 2 * index * BitVec.ofNat 64 e.tableEntrySize
  let (value, curOffset) ←
    e.memory.readEncodedPointer t pcOffset e.entriesDataOffset e.tableEncoding pcOffset
  let (offset, _) ←
    e.memory.readEncodedPointer t pcOffset e.entriesDataOffset e.tableEncoding curOffset
  return ⟨(value + 4).setWidth t.bits, offset⟩

/-- `GetFdeInfoFromIndex`. The pointer is null if the entry cannot be read. -/
def getFdeInfoFromIndex (e : DwarfEhFrame t) (index : Word) :
    Except PointerFailure (Option (FdeInfo t) × DwarfEhFrame t) :=
  match e.fdeInfo.lookup index with
  | some info => .ok (some info, e)
  | none =>
    match e.readEntry index with
    | .ok info => .ok (some info, { e with fdeInfo := (index, info) :: e.fdeInfo })
    | .error (.read .unreadable) => .ok (none, e)
    | .error failure => .error failure

/-- `GetFdeInfoFromIndex`, with a use of the entry behind it. -/
def useFdeInfo (e : DwarfEhFrame t) (index : Word) : Except Stop (FdeInfo t × DwarfEhFrame t) :=
  match e.getFdeInfoFromIndex index with
  | .ok (some info, e) => .ok (info, e)
  | .ok (none, _) => .error .nullDereference
  | .error failure => .error (.pointer failure)

/-- The loop of `GetFdeOffsetBinary` and what stands behind it. -/
def binaryLoop (pc : Word) :
    Nat → DwarfEhFrame t → Word → Word → Except Stop (Option Word × DwarfEhFrame t)
  | 0, _, _, _ => .error .running
  | fuel + 1, e, first, last =>
    if first < last then do
      let current := (first + last) / 2
      let (info, e) ← e.useFdeInfo current
      if pc.toNat = info.pc.toNat then return (some info.offset, e)
      else if pc.toNat < info.pc.toNat then binaryLoop pc fuel e first current
      else binaryLoop pc fuel e (current + 1) last
    else if last ≠ 0 then do
      let (info, e) ← e.useFdeInfo (last - 1)
      return (some info.offset, e)
    else .ok (none, e)

/-- `GetFdeOffsetBinary`: the offset, or `none` where it returns `false`. -/
def getFdeOffsetBinary (e : DwarfEhFrame t) (fuel : Nat) (pc totalEntries : Word) :
    Except Stop (Option Word × DwarfEhFrame t) :=
  if ¬ 0 < e.fdeCount ∨ ¬ totalEntries ≤ e.fdeCount then .error .checkFailed
  else binaryLoop pc fuel e 0 totalEntries

end DwarfEhFrame

end AndroidCore.Libunwindstack
