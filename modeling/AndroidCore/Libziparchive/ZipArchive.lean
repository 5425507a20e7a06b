import AndroidCore.Lib.Region
import AndroidCore.Libziparchive.ZipFormat

/-!
# `AndroidCore.Libziparchive.ZipArchive`: the zip reader

`zip_archive.cc` on an archive in memory (`OpenArchiveFromMemory`). The archive is the list
of its bytes; a pointer into it is an offset, and every access to it is a `view`, which ends
in `Outcome.outside` when it leaves the archive. The buffers the reader copies to are its
own.

* `openArchive`: `MapCentralDirectory` and `ParseZipArchive`.
* `findEntry`, `startIteration`, `next`: the lookups, over the hash table.
* `extractToWriter`: `CopyEntryToWriter` or `Inflate`, and `ValidateDataDescriptor`. zlib
  and the `Writer` are parameters.
-/

namespace AndroidCore.Libziparchive

open Lib

/-- `ErrorCodes`. `ParseZipArchive` returns `-1` for a bad central directory, which is also
the code of `kIterationEnd`. -/
inductive ErrorCode where
  | iterationEnd
  | zlibError
  | invalidFile
  | invalidHandle
  | duplicateEntry
  | emptyArchive
  | entryNotFound
  | invalidOffset
  | inconsistentInformation
  | invalidEntryName
  | ioError
  | mmapFailed
deriving DecidableEq, Repr

/-- A computation of the reader. -/
abbrev Reads := Outcome ErrorCode

/-- `kCrcChecksEnabled`. -/
def kCrcChecksEnabled : Bool := false

/-- `kMaxEOCDSearch`. -/
def kMaxEOCDSearch : Nat := kMaxCommentLen + EocdRecord.size

/-- `MappedZipFile::ReadAtOffset`: it is the start that is checked, not the end. -/
def readAtOffset (file : List UInt8) (len off : Nat) : Reads (List UInt8) :=
  if off > file.length then .error .ioError else view file off len

/-! ### The hash table -/

/-- A name in the central directory. -/
structure ZipString where
  name : Nat
  nameLength : Nat
deriving DecidableEq, Repr

/-- The table. A slot whose name is null is `none`. -/
abbrev HashTable := List (Option ZipString)

/-- `RoundUpPower2`. -/
def roundUpPower2 (val : UInt32) : UInt32 :=
  let val := val - 1
  let val := val ||| val >>> 1
  let val := val ||| val >>> 2
  let val := val ||| val >>> 4
  let val := val ||| val >>> 8
  let val := val ||| val >>> 16
  val + 1

/-- `ComputeHash`. -/
def computeHash (name : List UInt8) : UInt32 :=
  name.foldl (fun hash byte => hash * 31 + byte.toUInt32) 0

/-- `ZipString::operator==` for a name of the central directory. -/
def ZipString.equals (file : List UInt8) (s : ZipString) (name : List UInt8) : Reads Bool :=
  if s.nameLength ≠ name.length then pure false
  else do
    let bytes ← view file s.name s.nameLength
    pure (bytes == name)

/-- The loop of `EntryToIndex` and `AddToHash`, from slot `ent` on: the slot of the name, or
the empty slot behind the last one that was tried. -/
def probe (file : List UInt8) (table : HashTable) (name : List UInt8) :
    Nat → Nat → Reads (Nat × Bool)
  | 0, _ => .unfinished
  | fuel + 1, ent =>
    match table.getD ent none with
    | none => pure (ent, false)
    | some s => do
      let same ← s.equals file name
      if same then pure (ent, true)
      else probe file table name fuel ((ent + 1) &&& (table.length - 1))

/-- The slot of a name, tried from the one of its hash. A table without an empty slot is
gone through only once here. -/
def lookup (file : List UInt8) (table : HashTable) (name : List UInt8) : Reads (Nat × Bool) :=
  probe file table name table.length ((computeHash name).toNat &&& (table.length - 1))

/-- `EntryToIndex`. -/
def entryToIndex (file : List UInt8) (table : HashTable) (name : List UInt8) : Reads Nat := do
  let (ent, found) ← lookup file table name
  if found then pure ent else .error .entryNotFound

/-- `AddToHash`, for a name with its bytes. -/
def addToHash (file : List UInt8) (table : HashTable) (s : ZipString) (name : List UInt8) :
    Reads HashTable := do
  let (ent, found) ← lookup file table name
  if found then .error .duplicateEntry else pure (table.set ent (some s))

/-! ### Opening an archive -/

/-- The loop of `MapCentralDirectory0`: the last signature that starts at `i` or before. -/
def scanForEocd (scanBuffer : List UInt8) : Nat → Option Nat
  | 0 => if u32 scanBuffer 0 = EocdRecord.kSignature then some 0 else none
  | i + 1 =>
    if u32 scanBuffer (i + 1) = EocdRecord.kSignature then some (i + 1)
    else scanForEocd scanBuffer i

/-- What `MapCentralDirectory` finds out. -/
structure Directory where
  directoryOffset : Nat
  cdLength : Nat
  numEntries : Nat
deriving DecidableEq, Repr

/-- `MapCentralDirectory0`. -/
def mapCentralDirectory0 (file : List UInt8) (readAmount : Nat) : Reads Directory := do
  let searchStart := file.length - readAmount
  let scanBuffer ← readAtOffset file readAmount searchStart
  match scanForEocd scanBuffer (readAmount - EocdRecord.size) with
  | none => .error .invalidFile
  | some i =>
    let eocdOffset := searchStart + i
    let eocd := EocdRecord.decode (scanBuffer.drop i)
    let calculatedLength := eocdOffset + EocdRecord.size + eocd.commentLength.toNat
    if calculatedLength ≠ file.length then .error .invalidFile
    else if eocd.cdStartOffset.toNat + eocd.cdSize.toNat > eocdOffset then
      .error .invalidOffset
    else if eocd.numRecords = 0 then .error .emptyArchive
    -- `InitializeCentralDirectory`.
    else if eocd.cdStartOffset.toNat + eocd.cdSize.toNat > file.length then
      .error .mmapFailed
    else
      pure ⟨eocd.cdStartOffset.toNat, eocd.cdSize.toNat, eocd.numRecords.toNat⟩

/-- `MapCentralDirectory`. -/
def mapCentralDirectory (file : List UInt8) : Reads Directory :=
  if file.length > 0xffffffff then .error .invalidFile
  else if file.length < EocdRecord.size then .error .invalidFile
  else mapCentralDirectory0 file (min kMaxEOCDSearch file.length)

/-- The loop of `ParseZipArchive`, for `n` more records from `ptr` on. -/
def parseRecords (file : List UInt8) (d : Directory) : Nat → Nat → HashTable → Reads HashTable
  | 0, _, table => pure table
  | n + 1, ptr, table =>
    let cdEnd := d.directoryOffset + d.cdLength
    if ptr + CentralDirectoryRecord.size > cdEnd then .error .iterationEnd
    else do
      let record ← view file ptr CentralDirectoryRecord.size
      let cdr := CentralDirectoryRecord.decode record
      if cdr.recordSignature ≠ CentralDirectoryRecord.kSignature then .error .iterationEnd
      else if cdr.localFileHeaderOffset.toNat ≥ d.directoryOffset then .error .iterationEnd
      else
        let fileName := ptr + CentralDirectoryRecord.size
        let fileNameLength := cdr.fileNameLength.toNat
        if fileName + fileNameLength > cdEnd then .error .iterationEnd
        else do
          let name ← view file fileName fileNameLength
          if isValidEntryName name = false then .error .iterationEnd
          else do
            let table ← addToHash file table ⟨fileName, fileNameLength⟩ name
            let ptr := ptr + CentralDirectoryRecord.size + fileNameLength +
              cdr.extraFieldLength.toNat + cdr.commentLength.toNat
            if ptr - d.directoryOffset > d.cdLength then .error .iterationEnd
            else parseRecords file d n ptr table

/-- `ZipArchive`. In memory the base of the central directory is at `directoryOffset`. -/
structure ZipArchive where
  directory : Directory
  hashTable : HashTable
deriving DecidableEq, Repr

/-- `ParseZipArchive`. -/
def parseZipArchive (file : List UInt8) (d : Directory) : Reads ZipArchive := do
  let hashTableSize := roundUpPower2 (UInt32.ofNat (1 + d.numEntries * 4 / 3))
  let table ← parseRecords file d d.numEntries d.directoryOffset
    (List.replicate hashTableSize.toNat none)
  pure ⟨d, table⟩

/-- `OpenArchiveFromMemory`. -/
def openArchive (file : List UInt8) : Reads ZipArchive := do
  let d ← mapCentralDirectory file
  parseZipArchive file d

/-! ### Looking up entries -/

/-- `ZipEntry`. -/
structure ZipEntry where
  method : UInt16
  modTime : UInt32
  unixMode : UInt32
  hasDataDescriptor : Bool
  crc32 : UInt32
  compressedLength : UInt32
  uncompressedLength : UInt32
  offset : Nat
deriving DecidableEq, Repr

/-- The part of the static `FindEntry` behind the local header. -/
def checkLocalHeader (file : List UInt8) (archive : ZipArchive) (s : ZipString)
    (cdr : CentralDirectoryRecord) (lfh : LocalFileHeader) : Reads ZipEntry :=
  let cdOffset := archive.directory.directoryOffset
  let localHeaderOffset := cdr.localFileHeaderOffset.toNat
  let hasDataDescriptor : Bool := lfh.gpbFlags &&& kGPBDDFlagMask ≠ 0
  -- Without a trailing data descriptor the sizes have to agree.
  if hasDataDescriptor = false ∧ (cdr.compressedSize ≠ lfh.compressedSize ∨
      cdr.uncompressedSize ≠ lfh.uncompressedSize ∨ cdr.crc32 ≠ lfh.crc32) then
    .error .inconsistentInformation
  else if lfh.fileNameLength.toNat ≠ s.nameLength then .error .inconsistentInformation
  else
    let nameOffset := localHeaderOffset + LocalFileHeader.size
    if nameOffset + lfh.fileNameLength.toNat > cdOffset then .error .invalidOffset
    else do
      let nameBuf ← readAtOffset file s.nameLength nameOffset
      let name ← view file s.name s.nameLength
      if name ≠ nameBuf then .error .inconsistentInformation
      else
        let dataOffset := localHeaderOffset + LocalFileHeader.size +
          lfh.fileNameLength.toNat + lfh.extraFieldLength.toNat
        if dataOffset > cdOffset then .error .invalidOffset
        else if dataOffset + cdr.compressedSize.toNat > cdOffset then .error .invalidOffset
        else if cdr.compressionMethod = kCompressStored ∧
            dataOffset + cdr.uncompressedSize.toNat > cdOffset then
          .error .invalidOffset
        else
          pure
            { method := cdr.compressionMethod
              modTime := cdr.lastModDate.toUInt32 <<< 16 ||| cdr.lastModTime.toUInt32
              -- The upper byte of `version_made_by` gives the source OS. Unix is 3.
              unixMode :=
                if cdr.versionMadeBy >>> 8 = 3 then cdr.externalFileAttributes >>> 16 &&& 0xffff
                else 0o777
              hasDataDescriptor := hasDataDescriptor
              crc32 := cdr.crc32
              compressedLength := cdr.compressedSize
              uncompressedLength := cdr.uncompressedSize
              offset := dataOffset }

/-- The static `FindEntry`, for a name of the hash table. -/
def findEntryAt (file : List UInt8) (archive : ZipArchive) (s : ZipString) : Reads ZipEntry :=
  let ptr : Int := s.name - CentralDirectoryRecord.size
  let base : Int := archive.directory.directoryOffset
  if ptr < base ∨ ptr > base + archive.directory.cdLength then .error .invalidOffset
  else do
    let record ← view file ptr.toNat CentralDirectoryRecord.size
    let cdr := CentralDirectoryRecord.decode record
    let localHeaderOffset := cdr.localFileHeaderOffset.toNat
    if localHeaderOffset + LocalFileHeader.size ≥ archive.directory.directoryOffset then
      .error .invalidOffset
    else do
      let lfhBuf ← readAtOffset file LocalFileHeader.size localHeaderOffset
      let lfh := LocalFileHeader.decode lfhBuf
      if lfh.lfhSignature ≠ LocalFileHeader.kSignature then .error .invalidOffset
      else checkLocalHeader file archive s cdr lfh

/-- `FindEntry`. -/
def findEntry (file : List UInt8) (archive : ZipArchive) (entryName : List UInt8) :
    Reads ZipEntry :=
  if entryName.length = 0 then .error .invalidEntryName
  else do
    let ent ← entryToIndex file archive.hashTable entryName
    match archive.hashTable.getD ent none with
    | none => .error .entryNotFound
    | some s => findEntryAt file archive s

/-- `IterationHandle`. An absent filter is empty. -/
structure IterationHandle where
  position : Nat
  prefixFilter : List UInt8
  suffixFilter : List UInt8
deriving DecidableEq, Repr

/-- `StartIteration`. -/
def startIteration (prefixFilter suffixFilter : List UInt8) : IterationHandle :=
  ⟨0, prefixFilter, suffixFilter⟩

/-- `ZipString::StartsWith`. -/
def ZipString.startsWith (file : List UInt8) (s : ZipString) (filter : List UInt8) : Reads Bool :=
  if s.nameLength < filter.length then pure false
  else do
    let bytes ← view file s.name filter.length
    pure (bytes == filter)

/-- `ZipString::EndsWith`. -/
def ZipString.endsWith (file : List UInt8) (s : ZipString) (filter : List UInt8) : Reads Bool :=
  if s.nameLength < filter.length then pure false
  else do
    let bytes ← view file (s.name + s.nameLength - filter.length) filter.length
    pure (bytes == filter)

/-- The filters of an iteration. -/
def IterationHandle.accepts (file : List UInt8) (h : IterationHandle) (s : ZipString) :
    Reads Bool := do
  let starts ← (if h.prefixFilter = [] then pure true else s.startsWith file h.prefixFilter)
  if starts = false then pure false
  else if h.suffixFilter = [] then pure true else s.endsWith file h.suffixFilter

/-- The loop of `Next`, over `n` slots from `i` on: the first name that is accepted, and the
position behind it. -/
def nextSlot (file : List UInt8) (table : HashTable) (h : IterationHandle) :
    Nat → Nat → Reads (Option (Nat × ZipString))
  | 0, _ => pure none
  | n + 1, i =>
    match table.getD i none with
    | none => nextSlot file table h n (i + 1)
    | some s => do
      let accepted ← h.accepts file s
      if accepted then pure (some (i + 1, s)) else nextSlot file table h n (i + 1)

/-- `Next`: the handle behind the call, and the entry with its name unless the iteration has
ended or the entry is bad. -/
def next (file : List UInt8) (archive : ZipArchive) (h : IterationHandle) :
    Reads (IterationHandle × Except ErrorCode (ZipEntry × ZipString)) := do
  let table := archive.hashTable
  let slot ← nextSlot file table h (table.length - h.position) h.position
  match slot with
  | none => pure ({ h with position := 0 }, .error .iterationEnd)
  | some (position, s) =>
    let h := { h with position := position }
    match findEntryAt file archive s with
    | .ok entry => pure (h, .ok (entry, s))
    | .error e => pure (h, .error e)
    | .outside off len => .outside off len
    | .unfinished => .unfinished

/-! ### Extracting an entry -/

/-- What `inflate` returns. -/
inductive ZResult where
  | ok
  | streamEnd
  | failed
deriving DecidableEq, Repr

/-- The stream after a call of `inflate`: what it returned, the input it has left and the
output it has written. -/
structure ZStep (σ : Type) where
  zerr : ZResult
  rest : List UInt8
  output : List UInt8
  stream : σ

/-- What the reader needs of zlib: a stream, `inflate` with its input and the room for its
output, and `crc32`. -/
structure Zlib (σ : Type) where
  inflateInit : Option σ
  inflate : σ → List UInt8 → Nat → ZStep σ
  crcByte : UInt32 → UInt8 → UInt32

/-- `crc32`, over bytes. -/
def Zlib.crc32 {σ : Type} (z : Zlib σ) (crc : UInt32) (bytes : List UInt8) : UInt32 :=
  bytes.foldl z.crcByte crc

/-- `kBufSize`. -/
def kBufSize : Nat := 32768

section

variable {σ ω : Type}

/-- The variables of `Inflate`: the input that is left, the output buffer, and the writer. -/
structure InflateState (σ ω : Type) where
  stream : σ
  input : List UInt8
  writeBuf : List UInt8
  remainingBytes : Nat
  totalOut : Nat
  crc : UInt32
  writer : ω

/-- Read as much as we can, if there is no input left. -/
def refill (file : List UInt8) (entry : ZipEntry) (s : InflateState σ ω) :
    Reads (InflateState σ ω) :=
  if s.input = [] then do
    let readSize := if s.remainingBytes > kBufSize then kBufSize else s.remainingBytes
    let offset := entry.compressedLength.toNat - s.remainingBytes
    let readBuf ← readAtOffset file readSize (entry.offset + offset)
    pure { s with input := readBuf, remainingBytes := s.remainingBytes - readSize }
  else pure s

/-- Uncompress, and write when we're full or when we're done. -/
def inflateRound (z : Zlib σ) (append : ω → List UInt8 → Option ω) (s : InflateState σ ω) :
    Reads (ZResult × InflateState σ ω) :=
  let step := z.inflate s.stream s.input (kBufSize - s.writeBuf.length)
  let writeBuf := s.writeBuf ++ step.output
  let s := { s with
    stream := step.stream, input := step.rest, writeBuf := writeBuf
    totalOut := s.totalOut + step.output.length }
  if step.zerr = .failed then .error .zlibError
  else if writeBuf.length = kBufSize ∨ step.zerr = .streamEnd ∧ writeBuf.length ≠ 0 then
    match append s.writer writeBuf with
    | none => .error .ioError
    | some writer =>
      pure (step.zerr,
        { s with writer := writer, crc := z.crc32 s.crc writeBuf, writeBuf := [] })
  else pure (step.zerr, s)

/-- The loop of `Inflate`. -/
def inflateLoop (file : List UInt8) (z : Zlib σ) (append : ω → List UInt8 → Option ω)
    (entry : ZipEntry) : Nat → InflateState σ ω → Reads (UInt32 × ω)
  | 0, _ => .unfinished
  | fuel + 1, s => do
    let s ← refill file entry s
    let (zerr, s) ← inflateRound z append s
    if zerr = .ok then inflateLoop file z append entry fuel s
    else if s.totalOut ≠ entry.uncompressedLength.toNat ∨ s.remainingBytes ≠ 0 then
      .error .inconsistentInformation
    else pure (s.crc, s.writer)

/-- `InflateEntryToWriter`. -/
def inflateEntryToWriter (file : List UInt8) (z : Zlib σ) (append : ω → List UInt8 → Option ω)
    (fuel : Nat) (entry : ZipEntry) (writer : ω) : Reads (UInt32 × ω) :=
  match z.inflateInit with
  | none => .error .zlibError
  | some stream =>
    inflateLoop file z append entry fuel
      { stream := stream, input := [], writeBuf := []
        remainingBytes := entry.compressedLength.toNat, totalOut := 0, crc := 0
        writer := writer }

/-- The loop of `CopyEntryToWriter`. -/
def copyLoop (file : List UInt8) (z : Zlib σ) (append : ω → List UInt8 → Option ω)
    (entry : ZipEntry) (count : Nat) (crc : UInt32) (writer : ω) : Reads (UInt32 × ω) :=
  let length := entry.uncompressedLength.toNat
  if _h : count < length then
    let remaining := length - count
    let blockSize := if remaining > kBufSize then kBufSize else remaining
    match readAtOffset file blockSize (entry.offset + count) with
    | .ok buf =>
      match append writer buf with
      | none => .error .ioError
      | some writer =>
        copyLoop file z append entry (count + blockSize) (z.crc32 crc buf) writer
    | .error e => .error e
    | .outside off len => .outside off len
    | .unfinished => .unfinished
  else pure (crc, writer)
termination_by entry.uncompressedLength.toNat - count
decreasing_by
  have hpos : 0 < kBufSize := by decide
  split <;> omega

/-- `CopyEntryToWriter`. -/
def copyEntryToWriter (file : List UInt8) (z : Zlib σ) (append : ω → List UInt8 → Option ω)
    (entry : ZipEntry) (writer : ω) : Reads (UInt32 × ω) :=
  copyLoop file z append entry 0 0 writer

/-- `ValidateDataDescriptor`. -/
def validateDataDescriptor (file : List UInt8) (entry : ZipEntry) : Reads Unit := do
  let offset := entry.offset +
    if entry.method ≠ kCompressStored then entry.compressedLength.toNat
    else entry.uncompressedLength.toNat
  let ddBuf ← readAtOffset file (DataDescriptor.size + 4) offset
  let ddOffset := if u32 ddBuf 0 = DataDescriptor.kOptSignature then 4 else 0
  let descriptor := DataDescriptor.decode (ddBuf.drop ddOffset)
  if entry.compressedLength ≠ descriptor.compressedSize ∨
      entry.uncompressedLength ≠ descriptor.uncompressedSize ∨
      entry.crc32 ≠ descriptor.crc32 then
    .error .inconsistentInformation
  else pure ()

/-- `ExtractToWriter`: the writer after the last append. An entry whose method is neither
stored nor deflated fails with `-1`. -/
def extractToWriter (file : List UInt8) (z : Zlib σ) (append : ω → List UInt8 → Option ω)
    (fuel : Nat) (entry : ZipEntry) (writer : ω) : Reads ω :=
  let returnValue : Reads (UInt32 × ω) :=
    if entry.method = kCompressStored then copyEntryToWriter file z append entry writer
    else if entry.method = kCompressDeflated then
      inflateEntryToWriter file z append fuel entry writer
    else .error .iterationEnd
  match returnValue with
  | .ok (crc, writer) => do
    let _ ← (if entry.hasDataDescriptor then validateDataDescriptor file entry else pure ())
    if kCrcChecksEnabled ∧ entry.crc32 ≠ crc then .error .inconsistentInformation
    else pure writer
  | .error e =>
    if kCrcChecksEnabled ∧ entry.crc32 ≠ 0 then .error .inconsistentInformation
    else .error e
  | .outside off len => .outside off len
  | .unfinished => .unfinished

/-- `MemoryWriter::Append`, for a region of `size` bytes. -/
def memoryWriterAppend (size : Nat) (written buf : List UInt8) : Option (List UInt8) :=
  if written.length + buf.length > size then none else some (written ++ buf)

/-- `ExtractToMemory`. -/
def extractToMemory (file : List UInt8) (z : Zlib σ) (fuel : Nat) (entry : ZipEntry)
    (size : Nat) : Reads (List UInt8) :=
  extractToWriter file z (memoryWriterAppend size) fuel entry []

end

/-! ### Using an archive -/

section

variable {σ ω : Type}

/-- A call on an open archive. The number of `next` is that of an iteration that was
started, the number of `extract` that of an entry that was found. -/
inductive Call (ω : Type) where
  | findEntry (name : List UInt8)
  | startIteration (prefixFilter suffixFilter : List UInt8)
  | next (iteration : Nat)
  | extract (entry : Nat) (writer : ω) (fuel : Nat)

/-- What the caller has of an open archive. -/
structure Session where
  archive : ZipArchive
  iterations : List IterationHandle
  entries : List ZipEntry

/-- A call. What fails leaves the caller with what it had. -/
def Session.call (file : List UInt8) (z : Zlib σ) (append : ω → List UInt8 → Option ω)
    (s : Session) : Call ω → Reads Session
  | .findEntry name =>
    match findEntry file s.archive name with
    | .ok entry => pure { s with entries := s.entries ++ [entry] }
    | .error _ => pure s
    | .outside off len => .outside off len
    | .unfinished => .unfinished
  | .startIteration prefixFilter suffixFilter =>
    pure { s with iterations := s.iterations ++ [startIteration prefixFilter suffixFilter] }
  | .next iteration =>
    match s.iterations[iteration]? with
    | none => pure s
    | some h => do
      let (h, found) ← next file s.archive h
      let s := { s with iterations := s.iterations.set iteration h }
      match found with
      | .ok (entry, _) => pure { s with entries := s.entries ++ [entry] }
      | .error _ => pure s
  | .extract entry writer fuel =>
    match s.entries[entry]? with
    | none => pure s
    | some entry =>
      match extractToWriter file z append fuel entry writer with
      | .ok _ => pure s
      | .error _ => pure s
      | .outside off len => .outside off len
      | .unfinished => .unfinished

/-- Some calls, one after the other. -/
def Session.calls (file : List UInt8) (z : Zlib σ) (append : ω → List UInt8 → Option ω) :
    Session → List (Call ω) → Reads Session
  | s, [] => pure s
  | s, call :: rest => do
    let s ← s.call file z append call
    s.calls file z append rest

/-- Opening an archive, and calls on it if that succeeds. -/
def useArchive (file : List UInt8) (z : Zlib σ) (append : ω → List UInt8 → Option ω)
    (calls : List (Call ω)) : Reads Session := do
  let archive ← openArchive file
  Session.calls file z append ⟨archive, [], []⟩ calls

end

end AndroidCore.Libziparchive
