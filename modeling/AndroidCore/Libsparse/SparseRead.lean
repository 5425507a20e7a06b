import AndroidCore.Libsparse.Sparse

/-!
# `AndroidCore.Libsparse.SparseRead`: reading sparse and plain images

`sparse_read.cpp`. The input is the content of the file behind the descriptor
`fd`, and the file offset is passed along as `pos`. A raw chunk and a block of a
plain image become fd blocks that refer back to the same file.

A failed read or a malformed field makes a function return a negative `errno`;
a failed `assert` or a division by zero stops the process. `ReadError` keeps the
two apart. Messages printed in verbose mode are left out.
-/

namespace AndroidCore.Libsparse

open Lib

/-- Why reading stops: a negative return value, or the end of the process. -/
inductive ReadError where
  | errno (ret : Int)
  | fault (f : Fault)
deriving DecidableEq, Repr

/-- `-EINVAL`. -/
def eInval : ReadError := .errno (-22)

/-- A step that can only stop the process, inside the reader. -/
def orFault {α : Type} : Except Fault α → Except ReadError α
  | .ok a => .ok a
  | .error f => .error (.fault f)

/-- `COPY_BUF_SIZE`. -/
def copyBufSize : Nat := 1024 * 1024

/-- `read_all`: the next `len` bytes and the file offset behind them. A file that
ends before is `-EINVAL`. -/
def readAll (file : List UInt8) (pos len : Nat) : Except ReadError (List UInt8 × Nat) :=
  if len = 0 ∨ pos + len ≤ file.length then .ok ((file.drop pos).take len, pos + len)
  else .error eInval

/-! ### Chunks -/

/-- The checksum loop of `process_raw_chunk`: every piece is read into `copybuf`. -/
def rawCrcLoop (file : List UInt8) : List Nat → Nat → UInt32 → Except ReadError (UInt32 × Nat)
  | [], pos, crc => .ok (crc, pos)
  | n :: ns, pos, crc => do
      let (buf, pos) ← readAll file pos n
      rawCrcLoop file ns pos (sparseCrc32 crc buf)

/-- `process_raw_chunk`: the sparse file, the checksum and the offset after it.
`crc` is `none` for a null `crc32` pointer. -/
def processRawChunk (file : List UInt8) (fd : Int) (s : SparseFile)
    (chunkSize blocks block : UInt32) (pos : Nat) (crc : Option UInt32) :
    Except ReadError (SparseFile × Option UInt32 × Nat) := do
  let len := blocks * s.blockSize
  if s.blockSize = 0 then throw (.fault .divideByZero)
  if chunkSize % s.blockSize ≠ 0 then throw eInval
  if chunkSize / s.blockSize ≠ blocks then throw eInval
  let s ← orFault (sparseFileAddFd s fd pos len block)
  match crc with
  | none => return (s, none, pos + len.toNat)
  | some crc => do
      let (crc, pos) ← rawCrcLoop file (pieces copyBufSize len.toNat) pos crc
      return (s, some crc, pos)

/-- `process_fill_chunk`. The 64-bit length is cut to an `unsigned int` when the
block is added. -/
def processFillChunk (file : List UInt8) (s : SparseFile) (chunkSize blocks block : UInt32)
    (pos : Nat) (crc : Option UInt32) :
    Except ReadError (SparseFile × Option UInt32 × Nat) := do
  let len := blocks.toNat * s.blockSize.toNat
  if chunkSize ≠ 4 then throw eInval
  let (buf, pos) ← readAll file pos 4
  let fillVal := le32At buf 0
  let s ← orFault (sparseFileAddFill s fillVal (UInt32.ofNat len) block)
  let crc := crc.map fun crc =>
    (pieces copyBufSize len).foldl (fun crc n => sparseCrc32 crc (fillBytes fillVal n)) crc
  return (s, crc, pos)

/-- `process_skip_chunk`. -/
def processSkipChunk (s : SparseFile) (chunkSize blocks : UInt32) (crc : Option UInt32) :
    Except ReadError (Option UInt32) := do
  if chunkSize ≠ 0 then throw eInval
  let len := blocks.toNat * s.blockSize.toNat
  return crc.map fun crc =>
    (pieces copyBufSize len).foldl (fun crc n => sparseCrc32 crc (zeros n)) crc

/-- `process_crc32_chunk`: the offset after it. -/
def processCrc32Chunk (file : List UInt8) (chunkSize : UInt32) (pos : Nat)
    (crc : Option UInt32) : Except ReadError Nat := do
  if chunkSize ≠ 4 then throw eInval
  let (buf, pos) ← readAll file pos 4
  match crc with
  | none => return pos
  | some crc => if le32At buf 0 ≠ crc then throw eInval else return pos

/-- `process_chunk`: its return value, and the sparse file, the checksum and the
offset after it. An unknown chunk type counts as a chunk of no blocks. -/
def processChunk (file : List UInt8) (fd : Int) (s : SparseFile) (chunkHdrSz : UInt16)
    (hdr : ChunkHeader) (curBlock : UInt32) (pos : Nat) (crc : Option UInt32) :
    Except ReadError (Int × SparseFile × Option UInt32 × Nat) := do
  let chunkDataSize := hdr.totalSz - chunkHdrSz.toUInt32
  if hdr.chunkType = chunkTypeRaw then
    let (s, crc, pos) ← processRawChunk file fd s chunkDataSize hdr.chunkSz curBlock pos crc
    return (toInt hdr.chunkSz.toNat, s, crc, pos)
  else if hdr.chunkType = chunkTypeFill then
    let (s, crc, pos) ← processFillChunk file s chunkDataSize hdr.chunkSz curBlock pos crc
    return (toInt hdr.chunkSz.toNat, s, crc, pos)
  else if hdr.chunkType = chunkTypeDontCare then
    let crc ← processSkipChunk s chunkDataSize hdr.chunkSz crc
    return (toInt hdr.chunkSz.toNat, s, crc, pos)
  else if hdr.chunkType = chunkTypeCrc32 then
    let pos ← processCrc32Chunk file chunkDataSize pos crc
    return (0, s, crc, pos)
  else return (0, s, crc, pos)

/-! ### Whole images -/

/-- One iteration of the loop of `sparse_file_read_sparse`: the state behind the
next chunk. -/
def readChunk (file : List UInt8) (fd : Int) (chunkHdrSz : UInt16) (s : SparseFile)
    (curBlock : UInt32) (pos : Nat) (crc : Option UInt32) :
    Except ReadError (SparseFile × UInt32 × Nat × Option UInt32) := do
  let (buf, pos) ← readAll file pos chunkHeaderLen
  -- Skip the remaining bytes in a header that is longer than we expected.
  let pos := pos + (chunkHdrSz.toNat - chunkHeaderLen)
  let (ret, s, crc, pos) ←
    processChunk file fd s chunkHdrSz (ChunkHeader.decode buf) curBlock pos crc
  if ret < 0 then throw (.errno ret)
  return (s, curBlock + UInt32.ofInt ret, pos, crc)

/-- The loop of `sparse_file_read_sparse`, with `n` chunks left. -/
def readChunksLoop (file : List UInt8) (fd : Int) (chunkHdrSz : UInt16) :
    Nat → SparseFile → UInt32 → Nat → Option UInt32 → Except ReadError (SparseFile × UInt32)
  | 0, s, curBlock, _, _ => .ok (s, curBlock)
  | n + 1, s, curBlock, pos, crc => do
      let (s, curBlock, pos, crc) ← readChunk file fd chunkHdrSz s curBlock pos crc
      readChunksLoop file fd chunkHdrSz n s curBlock pos crc

/-- The header checks both `sparse_file_read_sparse` and `sparse_file_import`
make. -/
def headerOk (hdr : SparseHeader) : Bool :=
  hdr.magic == sparseHeaderMagic && hdr.majorVersion == sparseHeaderMajorVer &&
    sparseHeaderLen ≤ hdr.fileHdrSz.toNat && chunkHeaderLen ≤ hdr.chunkHdrSz.toNat

/-- `sparse_file_read_sparse`, from the start of the file. -/
def sparseFileReadSparse (file : List UInt8) (fd : Int) (s : SparseFile) (crc : Bool) :
    Except ReadError SparseFile := do
  let (buf, pos) ← readAll file 0 sparseHeaderLen
  let hdr := SparseHeader.decode buf
  if ¬ headerOk hdr then throw eInval
  -- Skip the remaining bytes in a header that is longer than we expected.
  let pos := pos + (hdr.fileHdrSz.toNat - sparseHeaderLen)
  let crc := if crc then some 0 else none
  let (s, curBlock) ← readChunksLoop file fd hdr.chunkHdrSz hdr.totalChunks.toNat s 0 pos crc
  if hdr.totalBlks ≠ curBlock then throw eInval
  return s

/-- A block of a plain image is sparse when all its 32-bit words are equal. -/
def sparseBlock (blockSize : Nat) (buf : List UInt8) : Bool :=
  ((List.range (blockSize / 4)).drop 1).all fun i => le32At buf 0 == le32At buf (4 * i)

/-- The loop of `sparse_file_read_normal`. Every iteration takes at least one
byte off `remain`, so `remain` iterations are enough. -/
def readNormalLoop (file : List UInt8) (fd : Int) :
    Nat → SparseFile → Nat → Nat → UInt32 → Except ReadError SparseFile
  | 0, s, _, _, _ => .ok s
  | fuel + 1, s, remain, offset, block => do
      if remain = 0 then return s
      let toRead := min remain s.blockSize.toNat
      let (buf, _) ← readAll file offset toRead
      let s ← orFault <|
        -- TODO: add flag to use skip instead of fill for buf[0] == 0
        if toRead = s.blockSize.toNat ∧ sparseBlock s.blockSize.toNat buf then
          sparseFileAddFill s (le32At buf 0) (UInt32.ofNat toRead) block
        else sparseFileAddFd s fd offset (UInt32.ofNat toRead) block
      readNormalLoop file fd fuel s (remain - toRead) (offset + toRead) (block + 1)

/-- `sparse_file_read_normal`, from the start of the file. -/
def sparseFileReadNormal (file : List UInt8) (fd : Int) (s : SparseFile) :
    Except ReadError SparseFile :=
  readNormalLoop file fd s.len.toNat s s.len.toNat 0 0

/-- `sparse_file_read`. -/
def sparseFileRead (file : List UInt8) (fd : Int) (s : SparseFile) (sparse crc : Bool) :
    Except ReadError SparseFile :=
  if crc ∧ ¬ sparse then .error eInval
  else if sparse then sparseFileReadSparse file fd s crc
  else sparseFileReadNormal file fd s

/-- The pointer a function returns: null for a failure, unless the process ends. -/
def orNull {α : Type} : Except ReadError α → Except Fault (Option α)
  | .ok a => .ok (some a)
  | .error (.errno _) => .ok none
  | .error (.fault f) => .error f

/-- `sparse_file_import`. -/
def sparseFileImport (file : List UInt8) (fd : Int) (crc : Bool) :
    Except Fault (Option SparseFile) :=
  orNull do
    let (buf, _) ← readAll file 0 sparseHeaderLen
    let hdr := SparseHeader.decode buf
    if ¬ headerOk hdr then throw eInval
    let len : Int := hdr.totalBlks.toNat * hdr.blkSz.toNat
    sparseFileRead file fd (sparseFileNew hdr.blkSz len) true crc

end AndroidCore.Libsparse
