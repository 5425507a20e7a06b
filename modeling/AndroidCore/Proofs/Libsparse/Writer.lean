import AndroidCore.Libsparse.Chunk
import AndroidCore.Proofs.Libsparse.Rounding

/-!
# `AndroidCore.Proofs.Libsparse.Writer`: what the sparse writer writes

The sparse writer hands a fixed sequence of buffers to `ops->write`, whatever
the output is: a file, a callback or a counter. This module names that sequence
(`sparseWrites`) and proves `writeSparseFile_sparse_eq`: a run that no buffer
makes fail returns 0, and its output is the fold of the writes over the
sequence. What each output makes of the sequence is then a fact about that
output alone: `feed_fileOps` for a file, `feed_counterOps` for a counter.
-/

namespace AndroidCore.Libsparse

open BackedBlock List Option UInt32

/-! ### The sequence of buffers -/

/-- The buffers of a raw chunk. -/
def rawWrites (blockSize len : UInt32) (data : List UInt8) : List (List UInt8) :=
  let zeroLen := align len blockSize - len
  [(dataChunkHeader blockSize len).encode, data] ++
    if zeroLen ≠ 0 then [zeros zeroLen.toNat] else []

/-- The buffers of a fill chunk. -/
def fillWrites (blockSize len val : UInt32) : List (List UInt8) :=
  [(fillChunkHeader blockSize len).encode, le32 val]

/-- The buffers of the chunk of one block. `none` when its bytes cannot be
read. -/
def blockWrites (env : Env) (blockSize : UInt32) (bb : BackedBlock) : Option (List (List UInt8)) :=
  match bb.type with
  | .fill val => some (fillWrites blockSize bb.len val)
  | _ => (bb.source env).map (rawWrites blockSize bb.len)

/-- The checksum after the chunk of one block. -/
def blockCrc (env : Env) (blockSize : UInt32) (bb : BackedBlock) (crc : UInt32) : UInt32 :=
  match bb.type with
  | .fill val => fillCrcLoop val (blockSize / 4).toNat crc
  | _ =>
    let zeroLen := align bb.len blockSize - bb.len
    let crc := sparseCrc32 crc ((bb.source env).getD [])
    if zeroLen ≠ 0 then sparseCrc32 crc (zeros zeroLen.toNat) else crc

/-- The skip chunk in front of a block that starts behind `lastBlock`. -/
def gapWrites (blockSize lastBlock : UInt32) (bb : BackedBlock) : List (List UInt8) :=
  if lastBlock < bb.block then
    [(skipChunkHeader blockSize ((bb.block - lastBlock).toNat * blockSize.toNat)).encode]
  else []

/-- The buffers of all blocks, behind block number `lastBlock`. -/
def streamWrites (env : Env) (blockSize : UInt32) :
    List BackedBlock → UInt32 → Option (List (List UInt8))
  | [], _ => some []
  | bb :: rest, lastBlock =>
    match blockWrites env blockSize bb, streamWrites env blockSize rest (blockEnd blockSize bb) with
    | some ws, some ws' => some (gapWrites blockSize lastBlock bb ++ ws ++ ws')
    | _, _ => none

/-- `last_block` behind all blocks. -/
def streamEnd (blockSize : UInt32) : List BackedBlock → UInt32 → UInt32
  | [], lastBlock => lastBlock
  | bb :: rest, _ => streamEnd blockSize rest (blockEnd blockSize bb)

/-- How many chunks the buffers of all blocks make up. -/
def streamChunks (blockSize : UInt32) : List BackedBlock → UInt32 → Nat
  | [], _ => 0
  | bb :: rest, lastBlock =>
    (if lastBlock < bb.block then 2 else 1) + streamChunks blockSize rest (blockEnd blockSize bb)

/-- The checksum behind all blocks. -/
def streamCrc (env : Env) (blockSize : UInt32) (blocks : List BackedBlock) (crc : UInt32) :
    UInt32 :=
  blocks.foldl (fun crc bb => blockCrc env blockSize bb crc) crc

/-- The bytes of the image behind the last block. -/
def SparseFile.tailLen (s : SparseFile) : Int :=
  s.len - (streamEnd s.blockSize s.blocks 0).toNat * s.blockSize.toNat

/-- The skip chunk of `pad` bytes; a length that is no multiple of the block size
is not written. -/
def padWrites (blockSize : UInt32) (pad : Int) : List (List UInt8) :=
  if 0 < pad ∧ pad.tmod blockSize.toNat = 0 then [(skipChunkHeader blockSize pad).encode]
  else []

/-- The skip chunk behind the last block. -/
def SparseFile.tailWrites (s : SparseFile) : List (List UInt8) :=
  padWrites s.blockSize s.tailLen

/-- The buffers of the crc chunk. -/
def crcWrites (crc : UInt32) : List (List UInt8) := [crcChunkHeader.encode, le32 crc]

/-- The buffers of a whole sparse file. -/
def sparseWrites (env : Env) (s : SparseFile) (crc : Bool) : Option (List (List UInt8)) :=
  (streamWrites env s.blockSize s.blocks 0).map fun ws =>
    [(sparseHeaderOf s.blockSize s.len (sparseCountChunks s) crc).encode] ++ ws ++
      s.tailWrites ++
      if crc then crcWrites (streamCrc env s.blockSize s.blocks 0) else []

/-! ### The writer follows the sequence -/

section
variable {σ : Type} (ops : OutputFileOps σ)

/-- The output after a sequence of buffers. -/
def feed (sink : σ) (ws : List (List UInt8)) : σ :=
  ws.foldl (fun sink d => (ops.write sink d).2) sink

theorem feed_append (sink : σ) (ws ws' : List (List UInt8)) :
    feed ops sink (ws ++ ws') = feed ops (feed ops sink ws) ws' := by
  unfold feed
  rw [foldl_append]

theorem feed_cons (sink : σ) (d : List UInt8) (ws : List (List UInt8)) :
    feed ops sink (d :: ws) = feed ops (ops.write sink d).2 ws := (rfl)

/-- No buffer of the sequence makes a write fail. -/
def Accepts (ws : List (List UInt8)) : Prop := ∀ d ∈ ws, ∀ sink, 0 ≤ (ops.write sink d).1

variable {ops} {ws : List (List UInt8)}

theorem Accepts.append_iff {ws' : List (List UInt8)} :
    Accepts ops (ws ++ ws') ↔ Accepts ops ws ∧ Accepts ops ws' :=
  forall_mem_append

theorem OutputFile.write_eq (out : OutputFile σ) (d : List UInt8) :
    out.write ops d = ((ops.write out.sink d).1, { out with sink := feed ops out.sink [d] }) :=
  (rfl)

variable {out : OutputFile σ}

theorem writeSparseSkipChunk_eq {n : Int} (hmod : n.tmod out.blockSize.toNat = 0)
    (hacc : Accepts ops [(skipChunkHeader out.blockSize n).encode]) :
    writeSparseSkipChunk ops out n
      = (0, { out with
          sink := feed ops out.sink [(skipChunkHeader out.blockSize n).encode]
          chunkCnt := out.chunkCnt + 1 }) := by
  have h := hacc _ (mem_singleton_self _)
  unfold writeSparseSkipChunk
  rw [if_neg (not_not.mpr hmod)]
  simp only [OutputFile.write_eq]
  rw [if_neg (Int.not_lt.mpr (h _))]

variable {len : UInt32}

theorem writeSparseFillChunk_eq {val : UInt32}
    (hacc : Accepts ops (fillWrites out.blockSize len val)) :
    writeSparseFillChunk ops out len val
      = (0, { out with
          sink := feed ops out.sink (fillWrites out.blockSize len val)
          crc32 := if out.useCrc then fillCrcLoop val (out.blockSize / 4).toNat out.crc32
            else out.crc32
          chunkCnt := out.chunkCnt + 1 }) := by
  have h₁ := hacc (fillChunkHeader out.blockSize len).encode (by simp [fillWrites])
  have h₂ := hacc (le32 val) (by simp [fillWrites])
  unfold writeSparseFillChunk
  simp only [OutputFile.write_eq]
  rw [if_neg (Int.not_lt.mpr (h₁ _)), if_neg (Int.not_lt.mpr (h₂ _))]
  rfl

variable {data : List UInt8}

theorem writeSparseDataChunk_eq (hacc : Accepts ops (rawWrites out.blockSize len data)) :
    writeSparseDataChunk ops out len data
      = (0, { out with
          sink := feed ops out.sink (rawWrites out.blockSize len data)
          crc32 :=
            if out.useCrc then
              if align len out.blockSize - len ≠ 0 then
                sparseCrc32 (sparseCrc32 out.crc32 data)
                  (zeros (align len out.blockSize - len).toNat)
              else sparseCrc32 out.crc32 data
            else out.crc32
          chunkCnt := out.chunkCnt + 1 }) := by
  have h₁ := hacc (dataChunkHeader out.blockSize len).encode (by simp [rawWrites])
  have h₂ := hacc data (by simp [rawWrites])
  unfold writeSparseDataChunk
  simp only [OutputFile.write_eq]
  rw [if_neg (Int.not_lt.mpr (h₁ _)), if_neg (Int.not_lt.mpr (h₂ _))]
  by_cases hz : align len out.blockSize - len ≠ 0
  · have h₃ := hacc (zeros (align len out.blockSize - len).toNat) (by simp [rawWrites, hz])
    simp only [if_pos hz]
    rw [if_neg (Int.not_lt.mpr (h₃ _))]
    simp only [rawWrites, if_pos hz]
    rfl
  · simp only [if_neg hz]
    rw [if_neg (Int.not_lt.mpr (h₂ _))]
    simp only [rawWrites, if_neg hz]
    rfl

variable {env : Env} {bb : BackedBlock}

/-- A block with a source is written as data. -/
theorem sparseFileWriteBlock_of_source (h : bb.source env = some data) :
    sparseFileWriteBlock env ops out bb = writeDataChunk ops out bb.len data := by
  unfold source at h
  unfold sparseFileWriteBlock
  cases ht : bb.type with
  | data p =>
    simp only [ht, some.injEq] at h
    simp [h]
  | file name o =>
    simp only [ht] at h
    obtain ⟨c, hc, hrange⟩ := bind_eq_some_iff.mp h
    simp [writeFileChunk, writeFdChunk, hc, hrange]
  | fd fd o =>
    simp only [ht] at h
    simp [writeFdChunk, h]
  | fill val => simp [ht] at h

theorem blockCrc_of_source (h : bb.source env = some data) (blockSize crc : UInt32) :
    blockCrc env blockSize bb crc
      = if align bb.len blockSize - bb.len ≠ 0 then
          sparseCrc32 (sparseCrc32 crc data) (zeros (align bb.len blockSize - bb.len).toNat)
        else sparseCrc32 crc data := by
  unfold blockCrc
  split
  · rename_i ht
    simp [source, ht] at h
  · rw [h, getD_some]

/-- `sparse_file_write_block` on a sparse output: it writes the block's buffers
and returns 0. -/
theorem sparseFileWriteBlock_eq (hsp : out.sparseOps = true)
    (hws : blockWrites env out.blockSize bb = some ws) (hacc : Accepts ops ws) :
    sparseFileWriteBlock env ops out bb
      = (0, { out with
          sink := feed ops out.sink ws
          crc32 := if out.useCrc then blockCrc env out.blockSize bb out.crc32 else out.crc32
          chunkCnt := out.chunkCnt + 1 }) := by
  unfold blockWrites at hws
  split at hws
  · rename_i val ht
    rw [← some.inj hws] at hacc ⊢
    unfold sparseFileWriteBlock blockCrc
    simp only [ht, writeFillChunk, if_pos hsp]
    exact writeSparseFillChunk_eq hacc
  · obtain ⟨data, hdata, rfl⟩ := map_eq_some_iff.mp hws
    rw [sparseFileWriteBlock_of_source hdata, writeDataChunk, if_pos hsp,
      writeSparseDataChunk_eq hacc, blockCrc_of_source hdata]

/-- A block that cannot be read makes `sparse_file_write_block` fail, and leaves
the output as it was. -/
theorem sparseFileWriteBlock_of_none (hws : blockWrites env out.blockSize bb = none) :
    ∃ ret < 0, sparseFileWriteBlock env ops out bb = (ret, out) := by
  unfold sparseFileWriteBlock
  unfold blockWrites source at hws
  cases ht : bb.type with
  | fill val | data p => simp [ht] at hws
  | file name o =>
    simp only [ht, map_eq_none_iff] at hws
    simp only [writeFileChunk]
    cases hc : env.file name with
    | none => exact ⟨-2, by decide, rfl⟩
    | some c =>
      simp only [hc] at hws
      simp only [writeFdChunk, hws]
      exact ⟨-22, by decide, rfl⟩
  | fd fd o =>
    simp only [ht, map_eq_none_iff] at hws
    simp only [writeFdChunk, hws]
    exact ⟨-22, by decide, rfl⟩

/-- The skip chunk in front of a block, when there is one. -/
theorem gap_eq (hsp : out.sparseOps = true) (lastBlock : UInt32) (bb : BackedBlock)
    (hacc : Accepts ops (gapWrites out.blockSize lastBlock bb)) :
    (if lastBlock < bb.block then
        (writeSkipChunk ops out ((bb.block - lastBlock).toNat * out.blockSize.toNat)).2
      else out)
      = { out with
          sink := feed ops out.sink (gapWrites out.blockSize lastBlock bb)
          chunkCnt := out.chunkCnt + if lastBlock < bb.block then 1 else 0 } := by
  by_cases h : lastBlock < bb.block
  · simp only [gapWrites, if_pos h] at hacc ⊢
    rw [writeSkipChunk, if_pos hsp, writeSparseSkipChunk_eq (Int.mul_tmod_left _ _) hacc]
  · simp only [gapWrites, if_neg h, UInt32.add_zero]
    rfl

/-- The loop of `write_all_blocks` on a sparse output. -/
theorem writeBlocksLoop_eq (blocks : List BackedBlock) (out : OutputFile σ) {lastBlock : UInt32}
    {ws : List (List UInt8)} (hsp : out.sparseOps = true)
    (hws : streamWrites env out.blockSize blocks lastBlock = some ws) (hacc : Accepts ops ws) :
    writeBlocksLoop env ops out.blockSize blocks lastBlock out
      = (0, streamEnd out.blockSize blocks lastBlock,
          { out with
            sink := feed ops out.sink ws
            crc32 :=
              if out.useCrc then streamCrc env out.blockSize blocks out.crc32 else out.crc32
            chunkCnt :=
              out.chunkCnt + UInt32.ofNat (streamChunks out.blockSize blocks lastBlock) }) := by
  induction blocks generalizing out lastBlock ws with
  | nil =>
    simp only [streamWrites, some.injEq] at hws
    subst hws
    simp [writeBlocksLoop, streamEnd, streamCrc, streamChunks, feed]
  | cons bb rest ih =>
    rw [streamWrites] at hws
    split at hws
    · rename_i wb wr hwb hwr
      simp only [some.injEq] at hws
      subst hws
      obtain ⟨hacc₁, hacc₃⟩ := Accepts.append_iff.mp hacc
      obtain ⟨hacc₁, hacc₂⟩ := Accepts.append_iff.mp hacc₁
      rw [writeBlocksLoop]
      simp only [gap_eq hsp lastBlock bb hacc₁]
      rw [sparseFileWriteBlock_eq (by exact hsp) (by exact hwb) hacc₂]
      simp only [ne_eq, not_true_eq_false, if_false]
      have hrec := ih { out with
          sink := feed ops (feed ops out.sink (gapWrites out.blockSize lastBlock bb)) wb
          crc32 := if out.useCrc then blockCrc env out.blockSize bb out.crc32 else out.crc32
          chunkCnt := out.chunkCnt + (if lastBlock < bb.block then 1 else 0) + 1 }
        (by exact hsp) (by exact hwr) hacc₃
      rw [hrec]
      simp only [streamEnd, feed_append, streamChunks]
      congr 3
      · split <;> simp [UInt32.add_assoc]
      · split <;> rfl
    · cases hws

/-- The skip chunk behind the last block, when there is one. -/
theorem tail_eq (out : OutputFile σ) (hsp : out.sparseOps = true) (pad : Int)
    (hacc : Accepts ops (padWrites out.blockSize pad)) :
    (if 0 < pad then (writeSkipChunk ops out pad).2 else out)
      = { out with
          sink := feed ops out.sink (padWrites out.blockSize pad)
          chunkCnt := out.chunkCnt +
            if 0 < pad ∧ pad.tmod out.blockSize.toNat = 0 then 1 else 0 } := by
  unfold padWrites at hacc ⊢
  by_cases hpos : 0 < pad
  · rw [if_pos hpos, writeSkipChunk, if_pos hsp]
    by_cases hmod : pad.tmod out.blockSize.toNat = 0
    · simp only [if_pos (And.intro hpos hmod)] at hacc ⊢
      rw [writeSparseSkipChunk_eq hmod hacc]
    · simp only [if_neg (fun h : 0 < pad ∧ _ => hmod h.2), UInt32.add_zero]
      unfold writeSparseSkipChunk
      rw [if_pos hmod]
      rfl
  · simp only [if_neg hpos, if_neg (fun h : 0 < pad ∧ _ => hpos h.1), UInt32.add_zero]
    rfl

variable {s : SparseFile}

/-- `write_all_blocks` on a sparse output. -/
theorem writeAllBlocks_eq (out : OutputFile σ) (hsp : out.sparseOps = true)
    (hbs : out.blockSize = s.blockSize) (hws : streamWrites env s.blockSize s.blocks 0 = some ws)
    (htail : 0 ≤ s.tailLen) (hacc : Accepts ops (ws ++ s.tailWrites)) :
    writeAllBlocks env ops s out
      = .ok (0, { out with
          sink := feed ops out.sink (ws ++ s.tailWrites)
          crc32 := if out.useCrc then streamCrc env s.blockSize s.blocks out.crc32 else out.crc32
          chunkCnt := out.chunkCnt + UInt32.ofNat (streamChunks s.blockSize s.blocks 0) +
            if 0 < s.tailLen ∧ s.tailLen.tmod s.blockSize.toNat = 0 then 1 else 0 }) := by
  obtain ⟨hacc₁, hacc₂⟩ := Accepts.append_iff.mp hacc
  have hloop := writeBlocksLoop_eq s.blocks out hsp (hbs ▸ hws) hacc₁
  rw [hbs] at hloop
  unfold writeAllBlocks
  rw [hloop]
  simp only [ne_eq]
  rw [show s.len - (streamEnd s.blockSize s.blocks 0).toNat * s.blockSize.toNat = s.tailLen
    from rfl, if_neg (Int.not_lt.mpr htail)]
  have htaileq := tail_eq { out with
      sink := feed ops out.sink ws
      crc32 := if out.useCrc then streamCrc env s.blockSize s.blocks out.crc32 else out.crc32
      blockSize := s.blockSize
      chunkCnt := out.chunkCnt + ofNat (streamChunks s.blockSize s.blocks 0) }
    hsp s.tailLen hacc₂
  rw [feed_append, SparseFile.tailWrites]
  rw [← apply_ite (fun o => (Except.ok (0, o)))]
  refine congrArg (fun o => Except.ok (0, o)) ?_
  exact htaileq.trans (by simp [hbs])

/-- A sparse run that no buffer makes fail: it returns 0, and the output is fed
exactly `sparseWrites`. -/
theorem writeSparseFile_sparse_eq {crc : Bool} {sink : σ} (hbs : s.blockSize.toNat < 2 ^ 31)
    (htail : 0 ≤ s.tailLen) (hws : sparseWrites env s crc = some ws) (hacc : Accepts ops ws) :
    writeSparseFile env ops s sink true crc = .ok (0, feed ops sink ws) := by
  obtain ⟨ws', hws', rfl⟩ := map_eq_some_iff.mp hws
  obtain ⟨hacc₁, hacc₃⟩ := Accepts.append_iff.mp hacc
  rw [append_assoc] at hacc₁
  obtain ⟨hacc₁, hacc₂⟩ := Accepts.append_iff.mp hacc₁
  unfold writeSparseFile outputFileInit
  rw [if_neg (by omega)]
  simp only [if_true, OutputFile.write_eq]
  rw [if_neg (Int.not_lt.mpr (hacc₁ _ (mem_singleton_self _) _))]
  simp only
  rw [writeAllBlocks_eq
    { chunkCnt := 0, crc32 := 0, useCrc := crc, blockSize := s.blockSize, len := s.len,
      sparseOps := true,
      sink := feed ops sink
        [(sparseHeaderOf s.blockSize s.len (sparseCountChunks s) crc).encode] }
    rfl rfl hws' htail hacc₂]
  show Except.ok (0, (outputFileClose ops _).sink) = _
  unfold outputFileClose writeSparseEndChunk
  simp only [if_true]
  cases crc with
  | false =>
    simp only [Bool.false_eq_true, if_false, append_nil, feed_append]
  | true =>
    simp only [OutputFile.write_eq]
    rw [if_neg (Int.not_lt.mpr (hacc₃ _ (by simp [crcWrites]) _))]
    simp only [feed_append]
    rfl

/-! ### Runs that fail -/

/-- Data that cannot be written makes the chunk fail. -/
theorem writeSparseDataChunk_of_fail (h : ∀ sink, (ops.write sink data).1 < 0) :
    (writeSparseDataChunk ops out len data).1 = -1 := by
  unfold writeSparseDataChunk
  simp only [OutputFile.write_eq]
  split
  · rfl
  · rw [if_pos (h _)]

/-- Two outputs work with the same block size and the same chunk operations. -/
def SameFormat (out out' : OutputFile σ) : Prop :=
  out'.blockSize = out.blockSize ∧ out'.sparseOps = out.sparseOps

theorem writeSkipChunk_sameFormat (out : OutputFile σ) (n : Int) :
    SameFormat out (writeSkipChunk ops out n).2 := by
  unfold writeSkipChunk writeSparseSkipChunk writeNormalSkipChunk
  simp only [OutputFile.write_eq]
  repeat' split
  all_goals exact ⟨rfl, rfl⟩

theorem sparseFileWriteBlock_sameFormat (env : Env) (out : OutputFile σ)
    (hsp : out.sparseOps = true) (bb : BackedBlock) :
    SameFormat out (sparseFileWriteBlock env ops out bb).2 := by
  unfold sparseFileWriteBlock writeFileChunk writeFdChunk writeDataChunk writeFillChunk
    writeSparseDataChunk writeSparseFillChunk
  simp only [if_pos hsp]
  repeat' split
  all_goals exact ⟨rfl, rfl⟩

/-- When the loop of `write_all_blocks` returns 0, so did the write of every
block. -/
theorem writeBlock_of_writeBlocksLoop (blocks : List BackedBlock) {out : OutputFile σ}
    {lastBlock : UInt32} (hsp : out.sparseOps = true)
    (hrun : (writeBlocksLoop env ops out.blockSize blocks lastBlock out).1 = 0) :
    ∀ bb ∈ blocks, ∃ out', SameFormat out out' ∧ (sparseFileWriteBlock env ops out' bb).1 = 0 := by
  induction blocks generalizing out lastBlock with
  | nil => intro bb hbb; cases hbb
  | cons b rest ih =>
    rw [writeBlocksLoop] at hrun
    -- `out₁` is the output behind the skip chunk, `out₂` the one behind the block.
    obtain ⟨out₁, hout₁⟩ : ∃ out₁, (if lastBlock < b.block then
        (writeSkipChunk ops out ((b.block - lastBlock).toNat * out.blockSize.toNat)).2
      else out) = out₁ := ⟨_, rfl⟩
    have hsame₁ : SameFormat out out₁ := by
      rw [← hout₁]
      split
      · exact writeSkipChunk_sameFormat out _
      · exact ⟨rfl, rfl⟩
    simp only [hout₁] at hrun
    have hsp₁ : out₁.sparseOps = true := hsame₁.2.trans hsp
    have hsame₂ : SameFormat out₁ (sparseFileWriteBlock env ops out₁ b).2 :=
      sparseFileWriteBlock_sameFormat env out₁ hsp₁ b
    by_cases hret : (sparseFileWriteBlock env ops out₁ b).1 = 0
    · rw [if_neg (not_not.mpr hret), ← hsame₁.1, ← hsame₂.1] at hrun
      intro bb hbb
      rcases mem_cons.mp hbb with rfl | hmem
      · exact ⟨out₁, hsame₁, hret⟩
      · obtain ⟨out', hsame', hok⟩ := ih (hsame₂.2.trans hsp₁) hrun bb hmem
        exact ⟨out', ⟨hsame'.1.trans (hsame₂.1.trans hsame₁.1),
          hsame'.2.trans (hsame₂.2.trans hsame₁.2)⟩, hok⟩
    · rw [if_pos hret] at hrun
      exact absurd hrun hret

/-- A sparse run that returns 0 has opened the output and written every block. -/
theorem writeBlock_of_writeSparseFile {crc : Bool} {sink sink' : σ}
    (hrun : writeSparseFile env ops s sink true crc = .ok (0, sink')) :
    s.blockSize.toNat < 2 ^ 31 ∧
      ∀ bb ∈ s.blocks, ∃ out : OutputFile σ, out.blockSize = s.blockSize ∧
        out.sparseOps = true ∧ (sparseFileWriteBlock env ops out bb).1 = 0 := by
  unfold writeSparseFile outputFileInit at hrun
  by_cases hbs : 2 ^ 31 ≤ s.blockSize.toNat
  · rw [if_pos hbs] at hrun
    simp at hrun
  · rw [if_neg hbs] at hrun
    simp only [if_true, OutputFile.write_eq] at hrun
    refine ⟨by omega, ?_⟩
    split at hrun
    · simp at hrun
    · rename_i out hout
      split at hout
      · cases hout
      · simp only [some.injEq] at hout
        intro bb hbb
        have hbsize : out.blockSize = s.blockSize := by rw [← hout]
        have hsp : out.sparseOps = true := by rw [← hout]
        have hzero : (writeBlocksLoop env ops out.blockSize s.blocks 0 out).1 = 0 := by
          by_contra hne
          unfold writeAllBlocks at hrun
          rw [← hbsize] at hrun
          simp only [ne_eq, hne, not_false_eq_true, if_true, bind, Except.bind, pure,
            Except.pure, Except.ok.injEq, Prod.mk.injEq] at hrun
          exact hrun.1
        obtain ⟨out', hsame, hok⟩ := writeBlock_of_writeBlocksLoop s.blocks hsp hzero bb hbb
        exact ⟨out', hsame.1.trans hbsize, hsame.2.trans hsp, hok⟩

end

/-- The blocks can all be written exactly when each one can be read. -/
theorem streamWrites_isSome_iff (env : Env) (blockSize : UInt32) (blocks : List BackedBlock) :
    ∀ lastBlock, (streamWrites env blockSize blocks lastBlock).isSome ↔
      ∀ bb ∈ blocks, (blockWrites env blockSize bb).isSome := by
  induction blocks with
  | nil => simp [streamWrites]
  | cons b rest ih =>
    intro lastBlock
    have hih := ih (blockEnd blockSize b)
    rw [streamWrites]
    simp only [mem_cons, forall_eq_or_imp, ← hih]
    cases blockWrites env blockSize b <;>
      cases streamWrites env blockSize rest (blockEnd blockSize b) <;> simp

/-! ### What an output makes of the buffers -/

variable (ws : List (List UInt8))

/-- A file open at its end takes every buffer and keeps them one after the
other. -/
theorem accepts_fileOps : Accepts fileOps ws := by
  intro d _ f
  show 0 ≤ (fileWrite f d).1
  unfold fileWrite
  split <;> exact Int.le_refl 0

theorem fileWrite_at_end (content d : List UInt8) :
    (fileWrite { content, pos := content.length } d).2
      = { content := content ++ d, pos := (content ++ d).length } := by
  unfold fileWrite
  split
  · rename_i hnil
    simp [hnil]
  · simp [zeros]

theorem feed_fileOps (content : List UInt8) :
    feed fileOps { content, pos := content.length } ws
      = { content := content ++ ws.flatten, pos := (content ++ ws.flatten).length } := by
  induction ws generalizing content with
  | nil => simp [feed]
  | cons d ws ih =>
    rw [feed_cons, show fileOps.write = fileWrite from rfl, fileWrite_at_end, ih, flatten_cons,
      append_assoc]

/-- A counter takes every buffer, and adds its length as an `int`. -/
theorem accepts_counterOps : Accepts counterOps ws :=
  fun _ _ _ => Int.le_refl 0

theorem feed_counterOps (count : Int) :
    feed counterOps count ws = count + (ws.map fun d => toInt d.length).sum := by
  induction ws generalizing count with
  | nil => simp [feed]
  | cons d ws ih =>
    rw [feed_cons, show counterOps.write count d = (0, count + toInt d.length) from rfl, ih,
      map_cons, sum_cons, Int.add_assoc]

end AndroidCore.Libsparse
