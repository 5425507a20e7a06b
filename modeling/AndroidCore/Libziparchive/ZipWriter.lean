import AndroidCore.Libziparchive.ZipArchive

/-!
# `AndroidCore.Libziparchive.ZipWriter`: the zip writer

`zip_writer.cc`, over an output that is a list of bytes with a position. Every call returns
the writer behind it or the error it fails with; what becomes of a writer that has failed is
left out, and so are failures of `fwrite` and `fflush`. That the output cannot be moved in
or cut off is an error of the calls that do so (`Sink`).

zlib is a parameter (`Deflater`): a stream, `deflate` and `crc32`. The time of an entry is
given by the two fields that `ExtractTimeAndDate` makes of it.
-/

namespace AndroidCore.Libziparchive

open Lib

/-! ### The output -/

/-- What the output can do: `fstat` says that it is a regular file, and whether `fseeko` and
`ftruncate` work. -/
structure Sink where
  isReg : Bool
  canSeek : Bool
  canTruncate : Bool
deriving DecidableEq, Repr

/-- The bytes of the output, and the position in it. -/
structure Output where
  bytes : List UInt8
  pos : Nat
deriving DecidableEq, Repr

/-- `fwrite`. -/
def Output.fwrite (o : Output) (data : List UInt8) : Output where
  bytes := o.bytes.take o.pos ++ data ++ o.bytes.drop (o.pos + data.length)
  pos := o.pos + data.length

/-- `fseeko`. -/
def Output.fseeko (o : Output) (pos : Nat) : Output := { o with pos := pos }

/-! ### The writer -/

/-- `ZipWriter::State`, without the one of a writer that has failed. -/
inductive WriterState where
  | writingZip
  | writingEntry
  | done
deriving DecidableEq, Repr

/-- The errors of the writer. `checkFailed` is a `CHECK` that aborts, and `unfinished` a call
that has not returned within the number of calls of `deflate` it was given. -/
inductive WriterError where
  | invalidState
  | ioError
  | invalidEntryName
  | zlibError
  | invalidAlign32Flag
  | invalidAlignment
  | checkFailed
  | unfinished
deriving DecidableEq, Repr

/-- `ZipWriter::FileEntry`. -/
structure FileEntry where
  path : List UInt8
  compressionMethod : UInt16
  crc32 : UInt32
  compressedSize : UInt32
  uncompressedSize : UInt32
  lastModTime : UInt16
  lastModDate : UInt16
  paddingLength : UInt32
  localFileHeaderOffset : Nat
deriving DecidableEq, Repr

/-- What the writer needs of zlib. `deflate` is given its input, whether to finish, and the
room for its output. -/
structure Deflater (τ : Type) where
  deflateInit : Option τ
  deflate : τ → List UInt8 → Bool → Nat → ZStep τ
  crcByte : UInt32 → UInt8 → UInt32

/-- `crc32`, over bytes. -/
def Deflater.crc32 {τ : Type} (dz : Deflater τ) (crc : UInt32) (bytes : List UInt8) : UInt32 :=
  bytes.foldl dz.crcByte crc

/-- `ZipWriter`. The buffer is the part of it in front of `next_out`. -/
structure ZipWriter (τ : Type) where
  sink : Sink
  file : Output
  currentOffset : Nat
  state : WriterState
  files : List FileEntry
  currentFileEntry : FileEntry
  zStream : Option τ
  buffer : List UInt8

/-- A `FileEntry` with zeros. -/
def FileEntry.zero : FileEntry := ⟨[], 0, 0, 0, 0, 0, 0, 0, 0⟩

section

variable {τ : Type}

/-- A new writer on an empty output. -/
def ZipWriter.new (sink : Sink) : ZipWriter τ :=
  ⟨sink, ⟨[], 0⟩, 0, .writingZip, [], FileEntry.zero, none, []⟩

/-- `seekable_`. -/
def ZipWriter.seekable (w : ZipWriter τ) : Bool := w.sink.isReg

/-- `fwrite` to the file of the writer. -/
def ZipWriter.fwrite (w : ZipWriter τ) (data : List UInt8) : ZipWriter τ :=
  { w with file := w.file.fwrite data }

/-- `CopyFromFileEntry`, to a header of zeros. -/
def copyFromFileEntry (src : FileEntry) (useDataDescriptor : Bool) : LocalFileHeader where
  lfhSignature := LocalFileHeader.kSignature
  versionNeeded := 0
  gpbFlags := if useDataDescriptor then kGPBDDFlagMask else 0
  compressionMethod := src.compressionMethod
  lastModTime := src.lastModTime
  lastModDate := src.lastModDate
  crc32 := if useDataDescriptor then 0 else src.crc32
  compressedSize := if useDataDescriptor then 0 else src.compressedSize
  uncompressedSize := if useDataDescriptor then 0 else src.uncompressedSize
  fileNameLength := UInt16.ofNat src.path.length
  extraFieldLength := src.paddingLength.toUInt16

/-- `ZipWriter::kCompress`. -/
def kCompress : Nat := 1

/-- `ZipWriter::kAlign32`. -/
def kAlign32 : Nat := 2

/-- `powerof2`. -/
def powerof2 (x : UInt32) : Bool := (x - 1) &&& x = 0

/-- The padding in front of data that would be at `offset`. It is kept in a `uint16_t`. -/
def paddingFor (offset : Nat) (alignment : UInt32) : UInt16 :=
  if alignment ≠ 0 ∧ offset &&& (alignment.toNat - 1) ≠ 0 then
    UInt16.ofNat (alignment.toNat - offset % alignment.toNat)
  else 0

/-- The bytes that `StartAlignedEntryWithTime` writes: header, path and padding. -/
def FileEntry.startBytes (e : FileEntry) (useDataDescriptor : Bool) : List UInt8 :=
  (copyFromFileEntry e useDataDescriptor).encode ++ e.path ++
    List.replicate e.paddingLength.toNat 0

/-- `StartAlignedEntryWithTime`, with the fields of the time. -/
def ZipWriter.startAlignedEntryWithTime (dz : Deflater τ) (w : ZipWriter τ)
    (path : List UInt8) (flags : Nat) (time : UInt16 × UInt16) (alignment : UInt32) :
    Except WriterError (ZipWriter τ) :=
  if w.state ≠ .writingZip then .error .invalidState
  else if flags &&& kAlign32 ≠ 0 then .error .invalidAlign32Flag
  else if powerof2 alignment = false then .error .invalidAlignment
  else if isValidEntryName path = false then .error .invalidEntryName
  else
    let compress : Bool := flags &&& kCompress ≠ 0
    let padding := paddingFor (w.currentOffset + LocalFileHeader.size + path.length) alignment
    let fileEntry : FileEntry :=
      { path := path
        compressionMethod := if compress then kCompressDeflated else kCompressStored
        crc32 := 0, compressedSize := 0, uncompressedSize := 0
        lastModTime := time.1, lastModDate := time.2
        paddingLength := padding.toUInt32
        localFileHeaderOffset := w.currentOffset }
    -- `PrepareDeflate`.
    let zStream := if compress then dz.deflateInit else w.zStream
    if compress ∧ zStream.isNone then .error .zlibError
    else
      -- Always start expecting a data descriptor.
      let w := w.fwrite (fileEntry.startBytes true)
      .ok { w with
        currentFileEntry := fileEntry
        currentOffset := w.currentOffset + LocalFileHeader.size + path.length + padding.toNat
        state := .writingEntry
        zStream := zStream
        buffer := if compress then [] else w.buffer }

/-- `StartEntry` and `StartEntryWithTime`. -/
def ZipWriter.startEntryWithTime (dz : Deflater τ) (w : ZipWriter τ) (path : List UInt8)
    (flags : Nat) (time : UInt16 × UInt16) : Except WriterError (ZipWriter τ) :=
  if flags &&& kAlign32 ≠ 0 then
    w.startAlignedEntryWithTime dz path (flags ^^^ kAlign32) time 4
  else w.startAlignedEntryWithTime dz path flags time 0

/-- `DiscardLastEntry`. -/
def ZipWriter.discardLastEntry (w : ZipWriter τ) : Except WriterError (ZipWriter τ) :=
  match w.files.getLast? with
  | none => .error .invalidState
  | some lastEntry =>
    if w.state ≠ .writingZip then .error .invalidState
    else if w.sink.canSeek = false then .error .ioError
    else
      .ok { w with
        currentOffset := lastEntry.localFileHeaderOffset
        file := w.file.fseeko lastEntry.localFileHeaderOffset
        files := w.files.dropLast }

/-- The compressed bytes in the buffer are written to the file, and the buffer is reset. -/
def ZipWriter.writeBuffer (w : ZipWriter τ) : ZipWriter τ :=
  let w' := w.fwrite w.buffer
  { w' with
    currentFileEntry :=
      { w.currentFileEntry with
        compressedSize := w.currentFileEntry.compressedSize + UInt32.ofNat w.buffer.length }
    currentOffset := w.currentOffset + w.buffer.length
    buffer := [] }

/-- `StoreBytes`. -/
def ZipWriter.storeBytes (w : ZipWriter τ) (data : List UInt8) : ZipWriter τ :=
  let w' := w.fwrite data
  { w' with
    currentFileEntry :=
      { w.currentFileEntry with
        compressedSize := w.currentFileEntry.compressedSize + UInt32.ofNat data.length }
    currentOffset := w.currentOffset + data.length }

/-- The loop of `CompressBytes`, with the input that is left. -/
def ZipWriter.compressLoop (dz : Deflater τ) :
    Nat → ZipWriter τ → τ → List UInt8 → Except WriterError (ZipWriter τ)
  | 0, _, _, _ => .error .unfinished
  | fuel + 1, w, stream, input =>
    if input = [] then .ok { w with zStream := some stream }
    else
      let step := dz.deflate stream input false (kBufSize - w.buffer.length)
      if step.zerr ≠ .ok then .error .zlibError
      else
        let w := { w with buffer := w.buffer ++ step.output }
        -- The output is full, let's write it to disk.
        let w := if w.buffer.length = kBufSize then w.writeBuffer else w
        compressLoop dz fuel w step.stream step.rest

/-- `CompressBytes`. The length of the input is kept in an `unsigned`. -/
def ZipWriter.compressBytes (dz : Deflater τ) (w : ZipWriter τ) (data : List UInt8)
    (fuel : Nat) : Except WriterError (ZipWriter τ) :=
  match w.zStream with
  | none => .error .checkFailed
  | some stream => w.compressLoop dz fuel stream (data.take (data.length % 2 ^ 32))

/-- The data is compressed. -/
def FileEntry.deflated (e : FileEntry) : Bool := e.compressionMethod &&& kCompressDeflated ≠ 0

/-- The data of an entry so far: `crc32` takes an `unsigned` length, and the size is a
`uint32_t`. -/
def FileEntry.addData (dz : Deflater τ) (e : FileEntry) (data : List UInt8) : FileEntry :=
  { e with
    crc32 := dz.crc32 e.crc32 (data.take (data.length % 2 ^ 32))
    uncompressedSize := e.uncompressedSize + UInt32.ofNat data.length }

/-- `WriteBytes`. -/
def ZipWriter.writeBytes (dz : Deflater τ) (w : ZipWriter τ) (data : List UInt8) (fuel : Nat) :
    Except WriterError (ZipWriter τ) :=
  if w.state ≠ .writingEntry then .error .invalidState
  else do
    let w ← (if w.currentFileEntry.deflated then w.compressBytes dz data fuel
      else .ok (w.storeBytes data))
    pure { w with currentFileEntry := w.currentFileEntry.addData dz data }

/-- `FlushCompressedBytes`. -/
def ZipWriter.flushLoop (dz : Deflater τ) : Nat → ZipWriter τ → τ → Except WriterError (ZipWriter τ)
  | 0, _, _ => .error .unfinished
  | fuel + 1, w, stream =>
    let step := dz.deflate stream [] true (kBufSize - w.buffer.length)
    let w := { w with buffer := w.buffer ++ step.output }
    match step.zerr with
    | .ok =>
      if w.buffer.length ≠ kBufSize then .error .checkFailed
      else flushLoop dz fuel w.writeBuffer step.stream
    | .streamEnd => .ok { w.writeBuffer with zStream := none }
    | .failed => .error .zlibError

/-- `FlushCompressedBytes`, if the data is compressed. -/
def ZipWriter.flushCompressedBytes (dz : Deflater τ) (w : ZipWriter τ) (fuel : Nat) :
    Except WriterError (ZipWriter τ) :=
  if w.currentFileEntry.deflated then
    match w.zStream with
    | none => .error .checkFailed
    | some stream => w.flushLoop dz fuel stream
  else .ok w

/-- An entry has a data descriptor if it is compressed or if the header cannot be
rewritten. -/
def FileEntry.hasDescriptor (e : FileEntry) (seekable : Bool) : Bool :=
  e.deflated || !seekable

/-- The data descriptor of an entry, with its signature. -/
def FileEntry.descriptorBytes (e : FileEntry) : List UInt8 :=
  bytes32 DataDescriptor.kOptSignature ++
    DataDescriptor.encode ⟨e.crc32, e.compressedSize, e.uncompressedSize⟩

/-- `FinishEntry`. -/
def ZipWriter.finishEntry (dz : Deflater τ) (w : ZipWriter τ) (fuel : Nat) :
    Except WriterError (ZipWriter τ) :=
  if w.state ≠ .writingEntry then .error .invalidState
  else do
    let w ← w.flushCompressedBytes dz fuel
    let entry := w.currentFileEntry
    if entry.hasDescriptor w.seekable then
      let w' := w.fwrite entry.descriptorBytes
      pure { w' with
        currentOffset := w.currentOffset + entry.descriptorBytes.length
        files := w.files ++ [entry]
        state := .writingZip }
    else if w.sink.canSeek = false then .error .ioError
    else
      -- Seek back to the header and rewrite to include the size.
      let header := copyFromFileEntry entry false
      let file := (w.file.fseeko entry.localFileHeaderOffset).fwrite header.encode
      pure { w with
        file := file.fseeko w.currentOffset
        files := w.files ++ [entry]
        state := .writingZip }

/-- The record of an entry in the central directory. -/
def FileEntry.record (e : FileEntry) (seekable : Bool) : CentralDirectoryRecord where
  recordSignature := CentralDirectoryRecord.kSignature
  versionMadeBy := 0
  versionNeeded := 0
  gpbFlags := if e.hasDescriptor seekable then kGPBDDFlagMask else 0
  compressionMethod := e.compressionMethod
  lastModTime := e.lastModTime
  lastModDate := e.lastModDate
  crc32 := e.crc32
  compressedSize := e.compressedSize
  uncompressedSize := e.uncompressedSize
  fileNameLength := UInt16.ofNat e.path.length
  extraFieldLength := 0
  commentLength := 0
  fileStartDisk := 0
  internalFileAttributes := 0
  externalFileAttributes := 0
  localFileHeaderOffset := UInt32.ofNat e.localFileHeaderOffset

/-- The bytes of an entry in the central directory. -/
def FileEntry.recordBytes (e : FileEntry) (seekable : Bool) : List UInt8 :=
  (e.record seekable).encode ++ e.path

/-- The loop of `Finish`. -/
def ZipWriter.writeRecord (w : ZipWriter τ) (e : FileEntry) : ZipWriter τ :=
  let bytes := e.recordBytes w.seekable
  let w' := w.fwrite bytes
  { w' with currentOffset := w.currentOffset + bytes.length }

/-- The end record of an archive with `n` entries. -/
def endRecord (n startOfCdr cdSize : Nat) : EocdRecord where
  eocdSignature := EocdRecord.kSignature
  diskNum := 0
  cdStartDisk := 0
  numRecordsOnDisk := UInt16.ofNat n
  numRecords := UInt16.ofNat n
  cdSize := UInt32.ofNat cdSize
  cdStartOffset := UInt32.ofNat startOfCdr
  commentLength := 0

/-- `Finish`: the bytes of the archive. -/
def ZipWriter.finish (w : ZipWriter τ) : Except WriterError (List UInt8) :=
  if w.state ≠ .writingZip then .error .invalidState
  else
    let startOfCdr := w.currentOffset
    let w := w.files.foldl ZipWriter.writeRecord w
    let er := endRecord w.files.length startOfCdr (w.currentOffset - startOfCdr)
    let w := w.fwrite er.encode
    let currentOffset := w.currentOffset + EocdRecord.size
    if w.sink.canTruncate = false then .error .ioError
    else .ok (w.file.bytes.take currentOffset)

/-! ### Sequences of calls -/

/-- A call of the writer. -/
inductive WriterCall where
  | startEntry (path : List UInt8) (flags : Nat) (time : UInt16 × UInt16)
  | startAlignedEntry (path : List UInt8) (flags : Nat) (time : UInt16 × UInt16)
      (alignment : UInt32)
  | writeBytes (data : List UInt8) (fuel : Nat)
  | finishEntry (fuel : Nat)
  | discardLastEntry

/-- One call. -/
def ZipWriter.call (dz : Deflater τ) (w : ZipWriter τ) :
    WriterCall → Except WriterError (ZipWriter τ)
  | .startEntry path flags time => w.startEntryWithTime dz path flags time
  | .startAlignedEntry path flags time alignment =>
    w.startAlignedEntryWithTime dz path flags time alignment
  | .writeBytes data fuel => w.writeBytes dz data fuel
  | .finishEntry fuel => w.finishEntry dz fuel
  | .discardLastEntry => w.discardLastEntry

/-- The calls, as long as they succeed. -/
def ZipWriter.calls (dz : Deflater τ) :
    ZipWriter τ → List WriterCall → Except WriterError (ZipWriter τ)
  | w, [] => .ok w
  | w, call :: rest => do
    let w ← w.call dz call
    w.calls dz rest

/-- The archive that calls on a new writer and `Finish` produce. -/
def writeArchive (dz : Deflater τ) (sink : Sink) (calls : List WriterCall) :
    Except WriterError (List UInt8) := do
  let w ← (ZipWriter.new sink).calls dz calls
  w.finish

end

end AndroidCore.Libziparchive
