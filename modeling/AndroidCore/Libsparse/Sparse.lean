import AndroidCore.Libsparse.OutputFile

/-!
# `AndroidCore.Libsparse.Sparse`: sparse files

`sparse.c`: building a sparse file, writing it to a file or a callback,
measuring it, and cutting it into smaller files. `struct sparse_file` and its
`backed_block_list` both hold the block size; `sparse_file_new` sets both to the
same value and nothing changes either, so it is kept once.

`sparse_file_resparse` loops until no block is left over. The loop takes a bound
on its iterations here and gives `none` when the bound is reached.
-/

namespace AndroidCore.Libsparse

/-- `struct sparse_file`. -/
structure SparseFile where
  len : Int
  backedBlockList : BackedBlockList
deriving DecidableEq, Repr

namespace SparseFile

/-- `s->block_size`. -/
def blockSize (s : SparseFile) : UInt32 := s.backedBlockList.blockSize

/-- The blocks of the list, in list order. -/
def blocks (s : SparseFile) : List BackedBlock := s.backedBlockList.dataBlocks

end SparseFile

/-- `sparse_file_new`. -/
def sparseFileNew (blockSize : UInt32) (len : Int) : SparseFile where
  len := len
  backedBlockList := backedBlockListNew blockSize

/-- `sparse_file_add_fill`. -/
def sparseFileAddFill (s : SparseFile) (fillVal len block : UInt32) : Except Fault SparseFile := do
  return { s with backedBlockList := ← backedBlockAddFill s.backedBlockList fillVal len block }

/-- `sparse_file_add_fd`. -/
def sparseFileAddFd (s : SparseFile) (fd fileOffset : Int) (len block : UInt32) :
    Except Fault SparseFile := do
  return { s with
    backedBlockList := ← backedBlockAddFd s.backedBlockList fd fileOffset len block }

/-! ### Counting and writing chunks -/

/-- `last_block` after a block: the block number right behind it. -/
def blockEnd (blockSize : UInt32) (bb : BackedBlock) : UInt32 :=
  bb.block + divRoundUp bb.len blockSize

/-- The loop of `sparse_count_chunks`: `last_block` and `chunks` at its end. -/
def countChunksLoop (blockSize : UInt32) : List BackedBlock → UInt32 → UInt32 → UInt32 × UInt32
  | [], lastBlock, chunks => (lastBlock, chunks)
  | bb :: bs, lastBlock, chunks =>
    -- If there is a gap between chunks, add a skip chunk
    let chunks := if lastBlock < bb.block then chunks + 1 else chunks
    countChunksLoop blockSize bs (blockEnd blockSize bb) (chunks + 1)

/-- `sparse_count_chunks`. -/
def sparseCountChunks (s : SparseFile) : UInt32 :=
  let (lastBlock, chunks) := countChunksLoop s.blockSize s.blocks 0 0
  if lastBlock.toNat < divRoundUp64 s.len s.blockSize then chunks + 1 else chunks

section
variable {σ : Type} (env : Env) (ops : OutputFileOps σ)

/-- `sparse_file_write_block`. -/
def sparseFileWriteBlock (out : OutputFile σ) (bb : BackedBlock) : Int × OutputFile σ :=
  match bb.type with
  | .data data => writeDataChunk ops out bb.len (env.readMem data bb.len.toNat)
  | .file filename offset => writeFileChunk ops env out bb.len filename offset
  | .fd fd offset => writeFdChunk ops out bb.len (env.fd fd) offset
  | .fill val => writeFillChunk ops out bb.len val

/-- The loop of `write_all_blocks`: the first nonzero result, else 0, with
`last_block` and the output. The result of a skip chunk is ignored. -/
def writeBlocksLoop (blockSize : UInt32) :
    List BackedBlock → UInt32 → OutputFile σ → Int × UInt32 × OutputFile σ
  | [], lastBlock, out => (0, lastBlock, out)
  | bb :: bs, lastBlock, out =>
    let out :=
      if lastBlock < bb.block then
        let blocks := bb.block - lastBlock
        (writeSkipChunk ops out (blocks.toNat * blockSize.toNat)).2
      else out
    let (ret, out) := sparseFileWriteBlock env ops out bb
    if ret ≠ 0 then (ret, lastBlock, out)
    else writeBlocksLoop blockSize bs (blockEnd blockSize bb) out

/-- `write_all_blocks`. -/
def writeAllBlocks (s : SparseFile) (out : OutputFile σ) : Except Fault (Int × OutputFile σ) :=
  let (ret, lastBlock, out) := writeBlocksLoop env ops s.blockSize s.blocks 0 out
  if ret ≠ 0 then .ok (ret, out)
  else
    let pad := s.len - lastBlock.toNat * s.blockSize.toNat
    if pad < 0 then .error .assertFailed
    else if 0 < pad then .ok (0, (writeSkipChunk ops out pad).2)
    else .ok (0, out)

/-- The common body of `sparse_file_write`, `sparse_file_callback` and
`sparse_file_len`: count, open, write, close. An output that cannot be opened
gives `-ENOMEM`. -/
def writeSparseFile (s : SparseFile) (sink : σ) (sparse crc : Bool) : Except Fault (Int × σ) :=
  match outputFileInit ops sink s.blockSize s.len sparse (sparseCountChunks s) crc with
  | none => .ok (-12, sink)
  | some out => do
      let (ret, out) ← writeAllBlocks env ops s out
      return (ret, (outputFileClose ops out).sink)

end

/-- `sparse_file_write` without compression, to a file that is empty before. -/
def sparseFileWrite (env : Env) (s : SparseFile) (sparse crc : Bool) :
    Except Fault (Int × FileSink) :=
  writeSparseFile env fileOps s { content := [], pos := 0 } sparse crc

/-- `sparse_file_callback`. -/
def sparseFileCallback {π : Type} (env : Env) (s : SparseFile) (sparse crc : Bool)
    (write : π → Option (List UInt8) → Int → Int × π) (priv : π) : Except Fault (Int × π) :=
  writeSparseFile env (callbackFileOps write) s priv sparse crc

/-- `out_counter_write`. -/
def outCounterWrite (count : Int) (_data : Option (List UInt8)) (len : Int) : Int × Int :=
  (0, count + len)

/-- The byte operations of an output that only counts. -/
def counterOps : OutputFileOps Int := callbackFileOps outCounterWrite

/-- `sparse_file_len`. -/
def sparseFileLen (env : Env) (s : SparseFile) (sparse crc : Bool) : Except Fault Int := do
  let (ret, count) ← writeSparseFile env counterOps s 0 sparse crc
  return if ret < 0 then -1 else count

/-! ### Cutting a sparse file into smaller ones -/

/-- How the loop of `move_chunks_up_to_len` ends: behind the last block, at a
block that could not be written, or at the block at `pos` that does not fit
after `fileLen` bytes. `lastBb` is the last block that fits. -/
inductive ScanEnd where
  | exhausted (lastBb : Option Nat)
  | failed
  | full (pos : Nat) (bb : BackedBlock) (fileLen : Int) (lastBb : Option Nat)

/-- The loop of `move_chunks_up_to_len`. -/
def moveChunksLoop (env : Env) (blockSize len : UInt32) :
    List BackedBlock → Nat → UInt32 → Int → Option Nat → OutputFile Int → ScanEnd
  | [], _, _, _, lastBb, _ => .exhausted lastBb
  | bb :: bs, pos, lastBlock, fileLen, lastBb, out =>
    let count : Int := if lastBlock < bb.block then chunkHeaderLen else 0
    -- will call out_counter_write to update count
    let (ret, out) := sparseFileWriteBlock env counterOps { out with sink := count } bb
    if ret ≠ 0 then .failed
    else if len.toNat < fileLen + out.sink then .full pos bb fileLen lastBb
    else
      moveChunksLoop env blockSize len bs (pos + 1) (blockEnd blockSize bb)
        (fileLen + out.sink) (some pos) out

/-- The overhead `move_chunks_up_to_len` reserves: the header, an end skip chunk
and a crc chunk. -/
def resparseOverhead : Nat := sparseHeaderLen + 2 * chunkHeaderLen + 4

/-- `backed_block_list_move` between two sparse files. -/
def SparseFile.moveBlocks (source dest : SparseFile) (start stop : Option Nat) :
    SparseFile × SparseFile :=
  let (a, b) := backedBlockListMove source.backedBlockList dest.backedBlockList start stop
  ({ source with backedBlockList := a }, { dest with backedBlockList := b })

/-- `move_chunks_up_to_len`: the two files after the move, and the block that
did not fit. -/
def moveChunksUpToLen (env : Env) (source dest : SparseFile) (maxLen : UInt32) :
    SparseFile × SparseFile × Option BackedBlock :=
  let len := maxLen - UInt32.ofNat resparseOverhead
  let start := if source.blocks = [] then none else some 0
  match outputFileInit counterOps 0 dest.blockSize dest.len true 0 false with
  | none => (source, dest, none)
  | some out =>
    match moveChunksLoop env dest.blockSize len source.blocks 0 0 0 none out with
    | .failed => (source, dest, none)
    | .exhausted lastBb =>
      let (source, dest) := source.moveBlocks dest start lastBb
      (source, dest, none)
    | .full pos bb fileLen lastBb =>
      let room := (len.toNat : Int) - (fileLen + chunkHeaderLen)
      -- If the remaining available size is more than 1/8th of the requested
      -- size, split the chunk.
      if lastBb = none ∨ (len / 8).toNat < room then
        let list := backedBlockSplit source.backedBlockList pos (UInt32.ofInt room)
        let (source, dest) :=
          { source with backedBlockList := list }.moveBlocks dest start (some pos)
        (source, dest, some bb)
      else
        let (source, dest) := source.moveBlocks dest start lastBb
        (source, dest, some bb)

/-- What `sparse_file_resparse` leaves: the count it returns, the entries of
`out_s` it stored, and its input file. -/
structure Resparsed where
  c : Nat
  outS : List SparseFile
  inS : SparseFile
deriving DecidableEq, Repr

/-- The `do { ... } while (bb)` loop of `sparse_file_resparse`. -/
def resparseLoop (env : Env) (maxLen : UInt32) (outSCount : Int) :
    Nat → SparseFile → SparseFile → List SparseFile → Nat →
      Option (SparseFile × SparseFile × List SparseFile × Nat)
  | 0, _, _, _, _ => none
  | fuel + 1, inS, tmp, outS, c =>
    let (inS, s, bb) :=
      moveChunksUpToLen env inS (sparseFileNew inS.blockSize inS.len) maxLen
    let (tmp, outS) :=
      if (c : Int) < outSCount then (tmp, outS ++ [s])
      else ((s.moveBlocks tmp none none).2, outS)
    match bb with
    | some _ => resparseLoop env maxLen outSCount fuel inS tmp outS (c + 1)
    | none => some (inS, tmp, outS, c + 1)

/-- `sparse_file_resparse`, with at most `fuel` iterations of its loop. -/
def sparseFileResparse (env : Env) (fuel : Nat) (inS : SparseFile) (maxLen : UInt32)
    (outSCount : Int) : Option Resparsed := do
  let tmp := sparseFileNew inS.blockSize inS.len
  let (inS, tmp, outS, c) ← resparseLoop env maxLen outSCount fuel inS tmp [] 0
  let (_, inS) := tmp.moveBlocks inS none none
  return { c, outS, inS }

end AndroidCore.Libsparse
