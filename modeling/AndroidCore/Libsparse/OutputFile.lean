import AndroidCore.Lib.Pieces
import AndroidCore.Libsparse.BackedBlock

/-!
# `AndroidCore.Libsparse.OutputFile`: writing chunks to an output

`output_file.c`. An `output_file` has two tables of operations: `ops` moves
bytes to a file descriptor or a callback, `sparse_ops` turns blocks into chunks
of the sparse format or into plain image bytes. The first table is the
structure `OutputFileOps` over an arbitrary state `σ` of the output, the second
the flag `sparseOps`.

Functions return the C return value and the output after the call, so that a
caller that ignores a failure goes on from the state the failure left. The gzip
table needs zlib and is left out, as is `cur_out_ptr`, which nothing reads.
-/

namespace AndroidCore.Libsparse

open Lib

/-! ### Where block data comes from -/

/-- What the data pointers, file names and descriptors of backed blocks refer
to: the process memory, and the contents of the files. -/
structure Env where
  mem : Nat → UInt8
  file : String → Option (List UInt8)
  fd : Int → Option (List UInt8)

/-- Memory full of zeros, and no files. -/
def Env.blank : Env where
  mem _ := 0
  file _ := none
  fd _ := none

/-- The `n` bytes at address `p`. -/
def Env.readMem (env : Env) (p n : Nat) : List UInt8 :=
  (List.range n).map fun i => env.mem (p + i)

/-- The bytes `write_fd_chunk` maps: `len` bytes of the file from `offset` on.
Mapping an empty range fails. Touching a mapped page behind the end of the file
kills the process, so a range that leaves the file counts as a failure too. -/
def mmapRange (content : List UInt8) (offset : Int) (len : Nat) : Option (List UInt8) :=
  if 0 ≤ offset ∧ len + offset.toNat % 4096 ≠ 0 ∧ offset.toNat + len ≤ content.length then
    some ((content.drop offset.toNat).take len)
  else none

/-! ### `struct output_file_ops` -/

/-- `struct output_file_ops`, on an output whose state is `σ`. -/
structure OutputFileOps (σ : Type) where
  skip : σ → Int → Int × σ
  pad : σ → Int → Int × σ
  write : σ → List UInt8 → Int × σ

/-- An open file: its bytes and the file offset. -/
structure FileSink where
  content : List UInt8
  pos : Nat
deriving DecidableEq, Repr

/-- `file_write`: the loop around `write(2)` until every byte is written. Bytes
between the end of the file and the offset read as zero afterwards. -/
def fileWrite (f : FileSink) (data : List UInt8) : Int × FileSink :=
  if data = [] then (0, f)
  else
    (0, { content := f.content.take f.pos ++ zeros (f.pos - f.content.length) ++ data ++
            f.content.drop (f.pos + data.length)
          pos := f.pos + data.length })

/-- `file_skip`: `lseek64(fd, cnt, SEEK_CUR)`. -/
def fileSkip (f : FileSink) (cnt : Int) : Int × FileSink :=
  if f.pos + cnt < 0 then (-1, f) else (0, { f with pos := (f.pos + cnt).toNat })

/-- `file_pad`: `ftruncate64(fd, len)`. -/
def filePad (f : FileSink) (len : Int) : Int × FileSink :=
  if len < 0 then (-22, f)
  else
    (0, { f with
      content := f.content.take len.toNat ++ zeros (len.toNat - f.content.length) })

/-- `file_ops`. -/
def fileOps : OutputFileOps FileSink where
  skip := fileSkip
  pad := filePad
  write := fileWrite

section Callback
variable {π : Type} (write : π → Option (List UInt8) → Int → Int × π)

/-- The loop of `callback_file_skip`, over the pieces it hands to the callback. -/
def callbackSkipLoop : π → List Nat → Int × π
  | priv, [] => (0, priv)
  | priv, n :: ns =>
    let (ret, priv) := write priv none n
    if ret < 0 then (ret, priv) else callbackSkipLoop priv ns

/-- `callback_file_ops`. The callback takes the length as an `int`, and a null
pointer for data that is skipped. -/
def callbackFileOps : OutputFileOps π where
  skip priv off := callbackSkipLoop write priv (pieces (2 ^ 31 - 1) off.toNat)
  pad priv _ := (-1, priv)
  write priv data := write priv (some data) (toInt data.length)

end Callback

/-! ### `struct output_file` -/

/-- `struct output_file`. `sparseOps` selects `sparse_file_ops` or
`normal_file_ops`; `sink` is the state the byte operations work on. -/
structure OutputFile (σ : Type) where
  chunkCnt : UInt32
  crc32 : UInt32
  useCrc : Bool
  blockSize : UInt32
  len : Int
  sparseOps : Bool
  sink : σ

section
variable {σ : Type} (ops : OutputFileOps σ)

/-- `out->ops->write`. -/
def OutputFile.write (out : OutputFile σ) (data : List UInt8) : Int × OutputFile σ :=
  let (ret, sink) := ops.write out.sink data
  (ret, { out with sink })

/-- `out->ops->skip`. -/
def OutputFile.skip (out : OutputFile σ) (cnt : Int) : Int × OutputFile σ :=
  let (ret, sink) := ops.skip out.sink cnt
  (ret, { out with sink })

/-! ### `sparse_file_ops` -/

/-- The chunk header of `write_sparse_skip_chunk`. -/
def skipChunkHeader (blockSize : UInt32) (skipLen : Int) : ChunkHeader where
  chunkType := chunkTypeDontCare
  reserved1 := 0
  chunkSz := UInt32.ofInt (skipLen.tdiv blockSize.toNat)
  totalSz := UInt32.ofNat chunkHeaderLen

/-- `write_sparse_skip_chunk`. -/
def writeSparseSkipChunk (out : OutputFile σ) (skipLen : Int) : Int × OutputFile σ :=
  -- don't care size is not a multiple of the block size
  if skipLen.tmod out.blockSize.toNat ≠ 0 then (-1, out)
  else
    let (ret, out) := out.write ops (skipChunkHeader out.blockSize skipLen).encode
    if ret < 0 then (-1, out) else (0, { out with chunkCnt := out.chunkCnt + 1 })

/-- The chunk header of `write_sparse_fill_chunk`. -/
def fillChunkHeader (blockSize len : UInt32) : ChunkHeader where
  chunkType := chunkTypeFill
  reserved1 := 0
  chunkSz := align len blockSize / blockSize
  totalSz := UInt32.ofNat (chunkHeaderLen + 4)

/-- The checksum loop of `write_sparse_fill_chunk`, with `count` iterations left. -/
def fillCrcLoop (fillVal : UInt32) : Nat → UInt32 → UInt32
  | 0, crc => crc
  | count + 1, crc => fillCrcLoop fillVal count (sparseCrc32 crc (le32 fillVal))

/-- `write_sparse_fill_chunk`. -/
def writeSparseFillChunk (out : OutputFile σ) (len fillVal : UInt32) : Int × OutputFile σ :=
  let (ret, out) := out.write ops (fillChunkHeader out.blockSize len).encode
  if ret < 0 then (-1, out)
  else
    let (ret, out) := out.write ops (le32 fillVal)
    if ret < 0 then (-1, out)
    else
      -- One block of fill words goes into the checksum, whatever `len` is.
      let crc32 :=
        if out.useCrc then fillCrcLoop fillVal (out.blockSize / 4).toNat out.crc32
        else out.crc32
      (0, { out with crc32, chunkCnt := out.chunkCnt + 1 })

/-- The chunk header of `write_sparse_data_chunk`. -/
def dataChunkHeader (blockSize len : UInt32) : ChunkHeader where
  chunkType := chunkTypeRaw
  reserved1 := 0
  chunkSz := align len blockSize / blockSize
  totalSz := UInt32.ofNat chunkHeaderLen + align len blockSize

/-- `write_sparse_data_chunk`, on the `len` bytes `data`. -/
def writeSparseDataChunk (out : OutputFile σ) (len : UInt32) (data : List UInt8) :
    Int × OutputFile σ :=
  let zeroLen := align len out.blockSize - len
  let (ret, out) := out.write ops (dataChunkHeader out.blockSize len).encode
  if ret < 0 then (-1, out)
  else
    let (ret, out) := out.write ops data
    if ret < 0 then (-1, out)
    else
      let (ret, out) :=
        if zeroLen ≠ 0 then out.write ops (zeros zeroLen.toNat) else (ret, out)
      if ret < 0 then (-1, out)
      else
        let crc32 :=
          if out.useCrc then
            let crc := sparseCrc32 out.crc32 data
            if zeroLen ≠ 0 then sparseCrc32 crc (zeros zeroLen.toNat) else crc
          else out.crc32
        (0, { out with crc32, chunkCnt := out.chunkCnt + 1 })

/-- The chunk header of `write_sparse_end_chunk`. -/
def crcChunkHeader : ChunkHeader where
  chunkType := chunkTypeCrc32
  reserved1 := 0
  chunkSz := 0
  totalSz := UInt32.ofNat (chunkHeaderLen + 4)

/-- `write_sparse_end_chunk`. The result of the second write is not stored, so
only the first write's result is looked at. -/
def writeSparseEndChunk (out : OutputFile σ) : Int × OutputFile σ :=
  if out.useCrc then
    let (ret, out) := out.write ops crcChunkHeader.encode
    if ret < 0 then (ret, out)
    else
      let (_, out) := out.write ops (le32 out.crc32)
      (0, { out with chunkCnt := out.chunkCnt + 1 })
  else (0, out)

/-! ### `normal_file_ops` -/

/-- `write_normal_data_chunk`, on the `len` bytes `data`. -/
def writeNormalDataChunk (out : OutputFile σ) (len : UInt32) (data : List UInt8) :
    Int × OutputFile σ :=
  let rndUpLen := align len out.blockSize
  let (ret, out) := out.write ops data
  if ret < 0 then (ret, out)
  else if len < rndUpLen then out.skip ops (rndUpLen - len).toNat
  else (ret, out)

/-- `fill_buf` after the loop that fills it: `block_size / 4` words, and the rest
as `calloc` left it. -/
def fillBuf (blockSize fillVal : UInt32) : List UInt8 :=
  fillBytes fillVal (4 * (blockSize.toNat / 4)) ++ zeros (blockSize.toNat % 4)

/-- The write loop of `write_normal_fill_chunk`, over the successive values of
`write_len`. -/
def normalFillLoop (buf : List UInt8) : OutputFile σ → List Nat → Int × OutputFile σ
  | out, [] => (0, out)
  | out, n :: ns =>
    let (ret, out) := out.write ops (buf.take n)
    if ret < 0 then (ret, out) else normalFillLoop buf out ns

/-- `write_normal_fill_chunk`. -/
def writeNormalFillChunk (out : OutputFile σ) (len fillVal : UInt32) : Int × OutputFile σ :=
  normalFillLoop ops (fillBuf out.blockSize fillVal) out
    (pieces out.blockSize.toNat len.toNat)

/-- `write_normal_skip_chunk`. -/
def writeNormalSkipChunk (out : OutputFile σ) (len : Int) : Int × OutputFile σ :=
  out.skip ops len

/-- `write_normal_end_chunk`. -/
def writeNormalEndChunk (out : OutputFile σ) : Int × OutputFile σ :=
  let (ret, sink) := ops.pad out.sink out.len
  (ret, { out with sink })

/-! ### Dispatch, opening and closing -/

/-- `write_data_chunk`. -/
def writeDataChunk (out : OutputFile σ) (len : UInt32) (data : List UInt8) : Int × OutputFile σ :=
  if out.sparseOps then writeSparseDataChunk ops out len data
  else writeNormalDataChunk ops out len data

/-- `write_fill_chunk`. -/
def writeFillChunk (out : OutputFile σ) (len fillVal : UInt32) : Int × OutputFile σ :=
  if out.sparseOps then writeSparseFillChunk ops out len fillVal
  else writeNormalFillChunk ops out len fillVal

/-- `write_skip_chunk`. -/
def writeSkipChunk (out : OutputFile σ) (len : Int) : Int × OutputFile σ :=
  if out.sparseOps then writeSparseSkipChunk ops out len
  else writeNormalSkipChunk ops out len

/-- `write_fd_chunk`, for a descriptor whose file holds `content`. A failed
`mmap` returns `-EINVAL`. -/
def writeFdChunk (out : OutputFile σ) (len : UInt32) (content : Option (List UInt8))
    (offset : Int) : Int × OutputFile σ :=
  match content.bind fun c => mmapRange c offset len.toNat with
  | none => (-22, out)
  | some data => writeDataChunk ops out len data

/-- `write_file_chunk`. A file that cannot be opened returns `-ENOENT`. -/
def writeFileChunk (env : Env) (out : OutputFile σ) (len : UInt32) (filename : String)
    (offset : Int) : Int × OutputFile σ :=
  match env.file filename with
  | none => (-2, out)
  | some content => writeFdChunk ops out len (some content) offset

/-- The header `output_file_init` writes. -/
def sparseHeaderOf (blockSize : UInt32) (len : Int) (chunks : UInt32) (crc : Bool) :
    SparseHeader where
  magic := sparseHeaderMagic
  majorVersion := sparseHeaderMajorVer
  minorVersion := sparseHeaderMinorVer
  fileHdrSz := UInt16.ofNat sparseHeaderLen
  chunkHdrSz := UInt16.ofNat chunkHeaderLen
  blkSz := blockSize
  totalBlks := UInt32.ofInt (divRoundUp64 len blockSize)
  totalChunks := if crc then chunks + 1 else chunks
  imageChecksum := 0

/-- `output_file_init`. `block_size` arrives as an `int`: from `2 ^ 31` on it is
negative, and `calloc` of its `size_t` value fails. -/
def outputFileInit (sink : σ) (blockSize : UInt32) (len : Int) (sparse : Bool)
    (chunks : UInt32) (crc : Bool) : Option (OutputFile σ) :=
  if 2 ^ 31 ≤ blockSize.toNat then none
  else
    let out : OutputFile σ :=
      { chunkCnt := 0, crc32 := 0, useCrc := crc, blockSize, len, sparseOps := sparse, sink }
    if sparse then
      let (ret, out) := out.write ops (sparseHeaderOf blockSize len chunks crc).encode
      if ret < 0 then none else some out
    else some out

/-- `output_file_close`: the end chunk, whose result is ignored. -/
def outputFileClose (out : OutputFile σ) : OutputFile σ :=
  if out.sparseOps then (writeSparseEndChunk ops out).2 else (writeNormalEndChunk ops out).2

end

end AndroidCore.Libsparse
