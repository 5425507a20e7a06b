import AndroidCore.Libsparse.Image

/-!
# `AndroidCore.Libsparse.Chunk`: the chunks of a sparse image

The format itself, between the writer and the reader: an image is a list of
chunks, each a number of blocks of data, of one fill word, or of nothing. A
chunk has an encoding and stands for a run of image bytes (`Chunk.expand`).

`SparseFile.chunks` is the list of chunks a sparse file amounts to, stated over
plain numbers: one chunk for each backed block, and a don't-care chunk for each
gap. The writer is compared with it where none of its 32-bit sums wraps.
`expandImage` is the meaning of an encoded image as `sparse_format.h` gives it.
-/

namespace AndroidCore.Libsparse

/-- A chunk: whole blocks of raw bytes, `n` blocks of a fill word, or `n` blocks
that are not backed. -/
inductive Chunk where
  | raw (bytes : List UInt8)
  | fill (val : UInt32) (n : Nat)
  | dontCare (n : Nat)
deriving DecidableEq, Repr

namespace Chunk

/-- How many blocks of the image a chunk covers. -/
def blocks (blockSize : Nat) : Chunk → Nat
  | .raw bytes => bytes.length / blockSize
  | .fill _ n => n
  | .dontCare n => n

/-- The type tag of a chunk. -/
def type : Chunk → UInt16
  | .raw _ => chunkTypeRaw
  | .fill _ _ => chunkTypeFill
  | .dontCare _ => chunkTypeDontCare

/-- What follows the chunk header in the file. -/
def payload : Chunk → List UInt8
  | .raw bytes => bytes
  | .fill val _ => le32 val
  | .dontCare _ => []

/-- The chunk header, with both sizes cut to 32 bits. -/
def header (blockSize : Nat) (c : Chunk) : ChunkHeader where
  chunkType := c.type
  reserved1 := 0
  chunkSz := UInt32.ofNat (c.blocks blockSize)
  totalSz := UInt32.ofNat (chunkHeaderLen + c.payload.length)

/-- The bytes of a chunk in the file. -/
def encode (blockSize : Nat) (c : Chunk) : List UInt8 :=
  (c.header blockSize).encode ++ c.payload

/-- The bytes of the image a chunk stands for. Blocks that are not backed read
as zero. -/
def expand (blockSize : Nat) : Chunk → List UInt8
  | .raw bytes => bytes
  | .fill val n => fillBytes val (n * blockSize)
  | .dontCare n => zeros (n * blockSize)

end Chunk

/-! ### The chunks of a sparse file -/

/-- The bytes of a block that is not a fill, as the writer gets at them. -/
def BackedBlock.source (env : Env) (bb : BackedBlock) : Option (List UInt8) :=
  match bb.type with
  | .data p => some (env.readMem p bb.len.toNat)
  | .file name o => (env.file name).bind fun c => mmapRange c o bb.len.toNat
  | .fd fd o => (env.fd fd).bind fun c => mmapRange c o bb.len.toNat
  | .fill _ => none

/-- The chunk of one backed block: its bytes padded with zeros to whole blocks,
or its fill word for as many blocks as it touches. -/
def BackedBlock.chunk (env : Env) (blockSize : Nat) (bb : BackedBlock) : Chunk :=
  match bb.type with
  | .fill val => .fill val (bb.numBlocks blockSize)
  | _ =>
    .raw ((bb.source env).getD [] ++ zeros (bb.numBlocks blockSize * blockSize - bb.len.toNat))

/-- The don't-care chunk from block number `last` up to `next`, unless the two
meet. -/
def gapChunks (last next : Nat) : List Chunk :=
  if last < next then [.dontCare (next - last)] else []

/-- The chunks of a list of blocks, behind block number `last`. -/
def chunksOf (env : Env) (blockSize : Nat) : List BackedBlock → Nat → List Chunk
  | [], _ => []
  | bb :: rest, last =>
    gapChunks last bb.block.toNat ++
      bb.chunk env blockSize :: chunksOf env blockSize rest (bb.endBlock blockSize)

/-- The block number behind a list of blocks. -/
def endOf (blockSize : Nat) : List BackedBlock → Nat → Nat
  | [], last => last
  | bb :: rest, _ => endOf blockSize rest (bb.endBlock blockSize)

namespace SparseFile

/-- The number of blocks of the image. -/
def totalBlocks (s : SparseFile) : Nat := s.len.toNat / s.blockSize.toNat

/-- The chunks of a sparse file. -/
def chunks (env : Env) (s : SparseFile) : List Chunk :=
  chunksOf env s.blockSize.toNat s.blocks 0 ++
    gapChunks (endOf s.blockSize.toNat s.blocks 0) s.totalBlocks

end SparseFile

/-! ### The meaning of an encoded image -/

/-- The image bytes of the next `n` chunks of a file, from `pos` on. `none` when
a chunk is cut short or has an unknown type. -/
def expandChunks (blockSize : Nat) (file : List UInt8) : Nat → Nat → Option (List UInt8)
  | 0, _ => some []
  | n + 1, pos =>
    let hdr := ChunkHeader.decode ((file.drop pos).take chunkHeaderLen)
    let data := pos + chunkHeaderLen
    let size := hdr.chunkSz.toNat * blockSize
    if file.length < data then none
    else if hdr.chunkType = chunkTypeRaw then
      if file.length < data + size then none
      else
        (expandChunks blockSize file n (data + size)).map
          ((file.drop data).take size ++ ·)
    else if hdr.chunkType = chunkTypeFill then
      if file.length < data + 4 then none
      else
        (expandChunks blockSize file n (data + 4)).map
          (fillBytes (le32At (file.drop data) 0) size ++ ·)
    else if hdr.chunkType = chunkTypeDontCare then
      (expandChunks blockSize file n data).map (zeros size ++ ·)
    else if hdr.chunkType = chunkTypeCrc32 then expandChunks blockSize file n (data + 4)
    else none

/-- The image bytes a sparse image file stands for: the expansion of the chunks
its header announces. -/
def expandImage (file : List UInt8) : Option (List UInt8) :=
  let hdr := SparseHeader.decode (file.take sparseHeaderLen)
  expandChunks hdr.blkSz.toNat file hdr.totalChunks.toNat sparseHeaderLen

end AndroidCore.Libsparse
