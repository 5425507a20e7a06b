import AndroidCore.Proofs.Libsparse.Format
import AndroidCore.Proofs.Libsparse.Writer

/-!
# `AndroidCore.Proofs.Libsparse.Chunks`: the writer writes the chunks of the file

`SparseFile.chunks` says over plain numbers which chunks a sparse file amounts
to. `Encodable` collects what keeps the 32-bit arithmetic of the writer equal to
plain arithmetic, and `sparseWrites_flatten` is the result: the buffers of the
writer, one after the other, are the header, the encoded chunks and the optional
crc chunk (`sparseBytes`).
-/

namespace AndroidCore.Libsparse

open BackedBlock List Option SparseFile UInt32

/-- A sparse file on which the sums of the writer do not wrap, and whose blocks
can be read: a block size below `2 ^ 31`, lengths that can be rounded up to the
block size in 32 bits, and fewer than `2 ^ 32` blocks. -/
structure SparseFile.Encodable (env : Env) (s : SparseFile) : Prop extends Valid s where
  blockSize_lt : s.blockSize.toNat < 2 ^ 31
  readable : s.Readable env
  fits : ∀ bb ∈ s.blocks, Fits s.blockSize bb
  blocks_lt : s.totalBlocks < 2 ^ 32

/-- A block of such a file: it is not empty, it can be read, and neither its rounded
length nor its end wraps. -/
structure BackedBlock.Encodable (env : Env) (blockSize : UInt32) (bb : BackedBlock) : Prop where
  nonempty : 0 < bb.len.toNat
  readable : env.cell bb.type 0 bb.len.toNat ≠ .unreadable
  fits : Fits blockSize bb
  end_lt : bb.endBlock blockSize.toNat < 2 ^ 32

/-! ### Reading the source of a block -/

/-- On a range that is not empty `mmap` gives the range of the file. -/
theorem mmapRange_eq_fileRange (content : List UInt8) (offset : Int) {len : Nat}
    (h : 0 < len) : mmapRange content offset len = fileRange content offset len := by
  unfold mmapRange fileRange
  have hne : len + offset.toNat % 4096 ≠ 0 := by omega
  simp only [hne, ne_eq, not_false_eq_true, true_and]

variable {content b : List UInt8} {offset : Int}

theorem length_fileRange {n : Nat} (h : fileRange content offset n = some b) : b.length = n := by
  unfold fileRange at h
  split at h
  · rw [← some.inj h, length_take, length_drop]
    omega
  · cases h

/-- A part of a range of a file is the part of its bytes. -/
theorem fileRange_add {n : Nat} (h : fileRange content offset n = some b) {off k : Nat}
    (hk : off + k ≤ n) : fileRange content (offset + off) k = some ((b.drop off).take k) := by
  unfold fileRange at h ⊢
  split at h
  · have hto : (offset + off).toNat = offset.toNat + off := by omega
    rw [if_pos (by omega), ← some.inj h, hto, drop_take, drop_drop,
      take_take, Nat.min_eq_left (by omega)]
  · cases h

section
variable {env : Env} {bb : BackedBlock}

theorem length_mmapRange {n : Nat} (h : mmapRange content offset n = some b) : b.length = n := by
  unfold mmapRange at h
  split at h
  · rename_i hle
    exact length_fileRange ((if_pos ⟨hle.1, hle.2.2⟩).trans h)
  · cases h

variable {data : List UInt8}

theorem length_source (h : bb.source env = some data) : data.length = bb.len.toNat := by
  unfold source at h
  split at h
  · rw [← some.inj h]
    simp [Env.readMem]
  · obtain ⟨c, _, hc⟩ := bind_eq_some_iff.mp h
    exact length_mmapRange hc
  · obtain ⟨c, _, hc⟩ := bind_eq_some_iff.mp h
    exact length_mmapRange hc
  · cases h

/-- The cells of a block are the parts of its source. -/
theorem cell_of_source (hlen : 0 < bb.len.toNat) (h : bb.source env = some data) {off k : Nat}
    (hk : off + k ≤ bb.len.toNat) : env.cell bb.type off k = .raw ((data.drop off).take k) := by
  unfold source at h
  cases ht : bb.type with
  | data p =>
    simp only [ht, some.injEq] at h
    simp only [Env.cell, ← h, Env.readMem]
    congr 1
    refine ext_getElem ?_ fun i h₁ h₂ => ?_
    · simp only [length_map, length_range, length_take, length_drop]
      omega
    · simp [Nat.add_assoc]
  | file name o | fd f o =>
    simp only [ht] at h
    obtain ⟨c, hc, hrange⟩ := bind_eq_some_iff.mp h
    rw [mmapRange_eq_fileRange c _ hlen] at hrange
    simp [Env.cell, hc, fileRange_add hrange hk]
  | fill v => simp [ht] at h

theorem chunk_of_fill {val : UInt32} (h : bb.type = .fill val) (bs : Nat) :
    bb.chunk env bs = .fill val (bb.numBlocks bs) := by
  unfold chunk
  rw [h]

theorem chunk_of_source (h : bb.source env = some data) (bs : Nat) :
    bb.chunk env bs = .raw (data ++ zeros (bb.numBlocks bs * bs - bb.len.toNat)) := by
  unfold chunk
  split
  · rename_i ht
    simp [source, ht] at h
  · rw [h, getD_some]

/-- The writer gets at a block exactly when its bytes can be read. -/
theorem blockWrites_isSome_iff (blockSize : UInt32) (hlen : 0 < bb.len.toNat) :
    (blockWrites env blockSize bb).isSome ↔
      env.cell bb.type 0 bb.len.toNat ≠ .unreadable := by
  unfold blockWrites source Env.cell
  cases bb.type with
  | data p => simp
  | file name o | fd f o =>
    simp only [mmapRange_eq_fileRange _ _ hlen, Nat.cast_zero, add_zero]
    split <;> simp [*]
  | fill v => simp

/-- A block that can be read is a fill, or has a source. -/
theorem fill_or_source (hlen : 0 < bb.len.toNat)
    (h : env.cell bb.type 0 bb.len.toNat ≠ .unreadable) :
    (∃ val, bb.type = .fill val) ∨ ∃ data, bb.source env = some data := by
  have hsome := (blockWrites_isSome_iff 1 hlen).mpr h
  unfold blockWrites at hsome
  split at hsome
  · exact .inl ⟨_, ‹_›⟩
  · rw [isSome_map] at hsome
    exact .inr (isSome_iff_exists.mp hsome)

end

/-! ### Chunk headers -/

section
variable {blockSize : UInt32} (hbs : 0 < blockSize.toNat)
include hbs

variable {bb : BackedBlock}

/-- The chunk sizes the writer computes for a block whose length can be rounded
up. -/
theorem align_div_eq_ofNat (h : Fits blockSize bb) :
    align bb.len blockSize / blockSize = UInt32.ofNat (bb.numBlocks blockSize.toNat) := by
  rw [← align_div_of_fits hbs h, UInt32.ofNat_toNat]

theorem align_eq_ofNat (h : Fits blockSize bb) :
    align bb.len blockSize
      = UInt32.ofNat (bb.numBlocks blockSize.toNat * blockSize.toNat) := by
  rw [← toNat_align_of_fits hbs h, UInt32.ofNat_toNat]

/-- The buffers of one block are its encoded chunk. -/
theorem blockWrites_flatten {env : Env} {ws : List (List UInt8)} (hfit : Fits blockSize bb)
    (hws : blockWrites env blockSize bb = some ws) :
    ws.flatten = (bb.chunk env blockSize.toNat).encode blockSize.toNat := by
  have hround := (len_le_numBlocks_mul hbs bb).1
  -- A block with a source: the zero padding is written only when it is not empty.
  have hraw : ∀ data, bb.source env = some data →
      (rawWrites blockSize bb.len data).flatten
        = (Chunk.raw (data ++ zeros (bb.numBlocks blockSize.toNat * blockSize.toNat
            - bb.len.toNat))).encode blockSize.toNat := by
    intro data hdata
    have hdlen := length_source hdata
    have hheader : dataChunkHeader blockSize bb.len
        = (Chunk.raw (data ++ zeros (bb.numBlocks blockSize.toNat * blockSize.toNat
            - bb.len.toNat))).header blockSize.toNat := by
      unfold dataChunkHeader Chunk.header
      rw [align_div_eq_ofNat hbs hfit, align_eq_ofNat hbs hfit]
      simp only [Chunk.type, Chunk.blocks, Chunk.payload, length_append, length_zeros, hdlen,
        Nat.add_sub_cancel' hround, Nat.mul_div_cancel _ hbs, ofNat_add]
    have hzero := toNat_zeroLen_of_fits hbs hfit
    unfold rawWrites Chunk.encode
    rw [hheader, ← hzero]
    by_cases hz : align bb.len blockSize - bb.len = 0
    · simp [hz, zeros, Chunk.payload]
    · simp [hz, Chunk.payload]
  unfold blockWrites at hws
  split at hws
  · rename_i val ht
    rw [← some.inj hws]
    have hheader : fillChunkHeader blockSize bb.len
        = (Chunk.fill val (bb.numBlocks blockSize.toNat)).header blockSize.toNat := by
      unfold fillChunkHeader Chunk.header
      simp [Chunk.type, Chunk.blocks, Chunk.payload, align_div_eq_ofNat hbs hfit]
    rw [chunk_of_fill ht]
    simp [fillWrites, hheader, Chunk.encode, Chunk.payload]
  · obtain ⟨data, hdata, rfl⟩ := map_eq_some_iff.mp hws
    rw [hraw data hdata, chunk_of_source hdata]

theorem skipChunkHeader_eq (n : Nat) :
    skipChunkHeader blockSize (n * blockSize.toNat)
      = (Chunk.dontCare n).header blockSize.toNat := by
  unfold skipChunkHeader
  have hdiv : ((n : Int) * blockSize.toNat).tdiv blockSize.toNat = n :=
    Int.mul_tdiv_cancel _ (by omega)
  rw [hdiv, ofInt_natCast]
  rfl

theorem gapWrites_flatten (lastBlock : UInt32) (bb : BackedBlock) :
    (gapWrites blockSize lastBlock bb).flatten
      = (gapChunks lastBlock.toNat bb.block.toNat).flatMap (Chunk.encode blockSize.toNat) := by
  unfold gapWrites gapChunks
  by_cases h : lastBlock < bb.block
  · have hsub : (bb.block - lastBlock).toNat = bb.block.toNat - lastBlock.toNat :=
      UInt32.toNat_sub_of_le _ _ (UInt32.le_of_lt h)
    rw [if_pos h, if_pos (lt_iff_toNat_lt.mp h), hsub, skipChunkHeader_eq hbs]
    simp [Chunk.encode, Chunk.payload]
  · rw [if_neg h, if_neg (fun hlt => h (lt_iff_toNat_lt.mpr hlt))]
    rfl

/-! ### The stream of chunks -/

variable {env : Env}

/-- What the writer does with the blocks: where it ends, how many chunks it writes, and the
bytes of its buffers. -/
theorem stream_eq (blocks : List BackedBlock) :
    ∀ lastBlock : UInt32, (∀ bb ∈ blocks, bb.Encodable env blockSize) →
      (streamEnd blockSize blocks lastBlock).toNat
        = endOf blockSize.toNat blocks lastBlock.toNat ∧
      streamChunks blockSize blocks lastBlock
        = (chunksOf env blockSize.toNat blocks lastBlock.toNat).length ∧
      ∀ ws, streamWrites env blockSize blocks lastBlock = some ws →
        ws.flatten = (chunksOf env blockSize.toNat blocks lastBlock.toNat).flatMap
          (Chunk.encode blockSize.toNat) := by
  induction blocks with
  | nil =>
    intro lastBlock _
    refine ⟨rfl, rfl, fun ws hws => ?_⟩
    cases hws
    rfl
  | cons bb rest ih =>
    intro lastBlock hblocks
    obtain ⟨hbb, hblocks⟩ := forall_mem_cons.mp hblocks
    obtain ⟨hend, hcount, hflat⟩ := ih (blockEnd blockSize bb) hblocks
    rw [toNat_blockEnd_of_fits hbs hbb.fits hbb.end_lt] at hend hcount hflat
    refine ⟨hend, ?_, fun ws hws => ?_⟩
    · have hgap : (if lastBlock < bb.block then 2 else 1)
          = (gapChunks lastBlock.toNat bb.block.toNat).length + 1 := by
        unfold gapChunks
        simp only [lt_iff_toNat_lt]
        split <;> rfl
      rw [streamChunks, chunksOf, length_append, length_cons]
      omega
    · rw [streamWrites] at hws
      split at hws
      · rename_i wb wr hwb hwr
        rw [← some.inj hws, chunksOf, flatten_append, flatten_append,
          gapWrites_flatten hbs, blockWrites_flatten hbs hbb.fits hwb, hflat wr hwr,
          flatMap_append, flatMap_cons, append_assoc]
      · cases hws

end

/-- The loop of `sparse_count_chunks` counts the chunks the writer writes. -/
theorem countChunksLoop_eq (blockSize : UInt32) (blocks : List BackedBlock) :
    ∀ lastBlock chunks : UInt32, countChunksLoop blockSize blocks lastBlock chunks
      = (streamEnd blockSize blocks lastBlock,
          chunks + UInt32.ofNat (streamChunks blockSize blocks lastBlock)) := by
  induction blocks with
  | nil => simp [countChunksLoop, streamEnd, streamChunks]
  | cons bb rest ih =>
    intro lastBlock chunks
    rw [countChunksLoop, ih, streamChunks, ofNat_add]
    split
    · rw [← UInt32.add_assoc, UInt32.add_assoc chunks 1 1]
      rfl
    · rw [← UInt32.add_assoc]
      rfl

/-! ### The whole file -/

section
variable {env : Env} {s : SparseFile}

/-- What a valid file keeps when its blocks are taken apart: its length is a whole
number of blocks, and every block is inside it. -/
structure SparseFile.Inside (s : SparseFile) : Prop where
  blockSize_pos : 0 < s.blockSize.toNat
  len_eq : ∃ n : Nat, s.len = n * s.blockSize.toNat
  inside : ∀ bb ∈ s.blocks, bb.block.toNat * s.blockSize.toNat + bb.len.toNat ≤ s.len

theorem SparseFile.Valid.toInside (h : s.Valid) : s.Inside :=
  ⟨h.blockSize_pos, h.len_eq, h.inside⟩

/-- The length of the file, in blocks. -/
theorem SparseFile.Inside.len_eq_totalBlocks (h : s.Inside) :
    s.len = s.totalBlocks * s.blockSize.toNat := by
  obtain ⟨n, hn⟩ := h.len_eq
  have hto : s.len.toNat = n * s.blockSize.toNat := by omega
  unfold totalBlocks
  rw [hto, Nat.mul_div_cancel _ h.blockSize_pos]
  exact hn

/-- Every block ends inside the image. -/
theorem SparseFile.Inside.endBlock_le (h : s.Inside) {bb : BackedBlock} (hbb : bb ∈ s.blocks) :
    bb.endBlock s.blockSize.toNat ≤ s.totalBlocks := by
  have hin := h.inside bb hbb
  have hlen := h.len_eq_totalBlocks
  have hblock : bb.block.toNat ≤ s.totalBlocks :=
    Nat.le_of_mul_le_mul_right (by omega) h.blockSize_pos
  have hnum := numBlocks_le_iff h.blockSize_pos bb (s.totalBlocks - bb.block.toNat)
  rw [Nat.sub_mul] at hnum
  unfold endBlock
  omega

/-- `last_block` stays inside the image, also where it wraps. -/
theorem toNat_streamEnd_le {blockSize : UInt32} (hbs : 0 < blockSize.toNat) {n : Nat}
    (blocks : List BackedBlock) {lastBlock : UInt32} (hlast : lastBlock.toNat ≤ n)
    (hend : ∀ bb ∈ blocks, bb.endBlock blockSize.toNat ≤ n) :
    (streamEnd blockSize blocks lastBlock).toNat ≤ n := by
  induction blocks generalizing lastBlock with
  | nil => exact hlast
  | cons bb rest ih =>
    refine ih (Nat.le_trans (toNat_blockEnd_le hbs bb) (hend bb mem_cons_self))
      fun b hb => hend b (mem_cons_of_mem _ hb)

/-- The rest behind the last block is not negative. -/
theorem SparseFile.Inside.tailLen_nonneg (h : s.Inside) : 0 ≤ s.tailLen := by
  have hend := @toNat_streamEnd_le s.blockSize h.blockSize_pos s.totalBlocks s.blocks 0
    (Nat.zero_le _) (fun bb => h.endBlock_le)
  have hmul := Nat.mul_le_mul_right s.blockSize.toNat hend
  unfold tailLen
  rw [h.len_eq_totalBlocks]
  exact Int.sub_nonneg_of_le (by exact_mod_cast hmul)

/-! ### The chunks of any length of the image -/

/-- `sparse_count_chunks` counts a chunk for the end of the image if bytes are left. -/
theorem lt_divRoundUp64_iff {x : Int} {y : UInt32} (hx : 0 ≤ x) (hy : 0 < y.toNat) (n : Nat) :
    (n : Int) < divRoundUp64 x y ↔ (n : Int) * y.toNat < x := by
  unfold divRoundUp64
  rw [Int.tdiv_eq_ediv_of_nonneg (by omega), Int.lt_iff_add_one_le,
    Int.le_ediv_iff_mul_le (by omega), Int.add_mul]
  omega

theorem sparseCountChunks_eq (hlen : 0 ≤ s.len) (hbs : 0 < s.blockSize.toNat) :
    sparseCountChunks s = UInt32.ofNat (streamChunks s.blockSize s.blocks 0) +
      if 0 < s.tailLen then 1 else 0 := by
  have hiff : ((streamEnd s.blockSize s.blocks 0).toNat) < divRoundUp64 s.len s.blockSize ↔
      0 < s.tailLen := by
    rw [lt_divRoundUp64_iff hlen hbs]
    unfold tailLen
    omega
  unfold sparseCountChunks
  rw [countChunksLoop_eq]
  simp only [hiff, UInt32.zero_add]
  split
  · rfl
  · exact (UInt32.add_zero _).symm

/-- Blocks within the rounded length of the image are within its length, if that is a whole
number of blocks. -/
theorem SparseFile.tailLen_nonneg_of_dvd (hbs : 0 < s.blockSize.toNat) (hlen : 0 < s.len)
    (hin : ∀ bb ∈ s.blocks,
      (bb.endBlock s.blockSize.toNat : Int) ≤ divRoundUp64 s.len s.blockSize)
    (hdvd : (s.blockSize.toNat : Int) ∣ s.len) : 0 ≤ s.tailLen := by
  have hend := @toNat_streamEnd_le s.blockSize hbs (divRoundUp64 s.len s.blockSize).toNat
    s.blocks 0 (Nat.zero_le _) fun bb hbb => by
      have hle := hin bb hbb
      omega
  unfold tailLen
  obtain ⟨k, hk⟩ := hdvd
  rcases Nat.eq_zero_or_pos (streamEnd s.blockSize s.blocks 0).toNat with hzero | hpos
  · rw [hzero]
    omega
  · obtain ⟨e, he⟩ : ∃ e, (streamEnd s.blockSize s.blocks 0).toNat = e + 1 :=
      ⟨_, (Nat.sub_add_cancel hpos).symm⟩
    -- the last block starts before the end of the image
    have hlast := (lt_divRoundUp64_iff hlen.le hbs e).mp (by omega)
    rw [hk, Int.mul_comm] at hlast
    have hek : e < k := Int.lt_of_mul_lt_mul_left hlast (by omega)
    have hmul := Int.mul_le_mul_of_nonneg_left (show e + 1 ≤ k by omega)
      (show 0 ≤ (s.blockSize.toNat : Int) by omega)
    rw [he, Int.mul_comm _ s.blockSize.toNat]
    push_cast
    omega

/-- `write_all_blocks` of a file with blocks within its rounded length, to a sparse output
that takes everything: the assertion holds and the chunks are those counted for the header,
if and only if the length of the image is a multiple of the block size. -/
theorem writeAllBlocks_counted_iff {σ : Type} {ops : OutputFileOps σ}
    (hbs : 0 < s.blockSize.toNat) (hlen : 0 < s.len)
    (hin : ∀ bb ∈ s.blocks,
      (bb.endBlock s.blockSize.toNat : Int) ≤ divRoundUp64 s.len s.blockSize)
    {ws : List (List UInt8)} (hws : streamWrites env s.blockSize s.blocks 0 = some ws)
    (hacc : ∀ ws, Accepts ops ws) (out : OutputFile σ) (hsp : out.sparseOps = true)
    (hout : out.blockSize = s.blockSize) :
    (∃ out', writeAllBlocks env ops s out = .ok (0, out') ∧
        out'.chunkCnt = out.chunkCnt + sparseCountChunks s) ↔
      (s.blockSize.toNat : Int) ∣ s.len := by
  have htail : (s.blockSize.toNat : Int) ∣ s.tailLen ↔ (s.blockSize.toNat : Int) ∣ s.len :=
    (Int.dvd_iff_dvd_of_dvd_sub (by
      unfold tailLen
      rw [Int.sub_sub_self]
      exact Int.dvd_mul_left _ _)).symm
  rw [sparseCountChunks_eq hlen.le hbs]
  constructor
  · rintro ⟨out', hrun, hcnt⟩
    rcases Int.lt_or_le s.tailLen 0 with hneg | hnonneg
    · -- the assertion fails
      have hloop := writeBlocksLoop_eq s.blocks out hsp (hout ▸ hws) (hacc ws)
      rw [hout] at hloop
      unfold writeAllBlocks at hrun
      rw [hloop] at hrun
      simp only [ne_eq] at hrun
      rw [if_pos (show s.len - (streamEnd s.blockSize s.blocks 0).toNat * s.blockSize.toNat < 0
        from hneg)] at hrun
      cases hrun
    · rw [writeAllBlocks_eq out hsp hout hws hnonneg (hacc _)] at hrun
      cases hrun
      rw [← htail]
      rcases Int.lt_or_eq_of_le hnonneg with hpos | hzero
      · by_contra hnot
        -- the chunk for the rest is counted, but it is not written
        have hmod : ¬ (0 < s.tailLen ∧ s.tailLen.tmod s.blockSize.toNat = 0) :=
          fun h => hnot (Int.dvd_of_tmod_eq_zero h.2)
        simp only [if_neg hmod, if_pos hpos, UInt32.add_assoc, UInt32.add_right_inj] at hcnt
        cases hcnt
      · rw [← hzero]
        exact Int.dvd_zero _
  · intro hdvd
    have hnonneg := tailLen_nonneg_of_dvd hbs hlen hin hdvd
    refine ⟨_, writeAllBlocks_eq out hsp hout hws hnonneg (hacc _), ?_⟩
    simp [Int.tmod_eq_zero_of_dvd (htail.mpr hdvd), UInt32.add_assoc]

/-- An image in blocks of 4 bytes that starts with a fill block. -/
def fillFile (len : Int) (fillLen : UInt32) : SparseFile where
  len := len
  backedBlockList :=
    { dataBlocks := [{ block := 0, len := fillLen, type := .fill 0 }]
      lastUsed := none, blockSize := 4 }

/-- An output that only counts, for images in blocks of 4 bytes. -/
def counterFile : OutputFile Int := ⟨0, 0, false, 4, 0, true, 0⟩

theorem writeAllBlocks_counted_fillFile :
    0 < (fillFile 8 4).len ∧
    ((∃ out', writeAllBlocks Env.blank counterOps (fillFile 8 4) counterFile = .ok (0, out') ∧
        out'.chunkCnt = 0 + sparseCountChunks (fillFile 8 4)) ↔ (4 : Int) ∣ 8) :=
  ⟨by decide, writeAllBlocks_counted_iff (by decide) (by decide) (by decide) rfl
    accepts_counterOps counterFile rfl rfl⟩

/-- An image of 6 bytes has two blocks. If both are filled, the assertion fails; if the second
one is left out, it is counted, but not written. -/
theorem fillFile_six_not_counted :
    (∀ bb ∈ (fillFile 6 8).blocks, (bb.endBlock 4 : Int) ≤ divRoundUp64 6 4) ∧
    writeAllBlocks Env.blank counterOps (fillFile 6 8) counterFile = .error .assertFailed ∧
    ∃ out', writeAllBlocks Env.blank counterOps (fillFile 6 4) counterFile = .ok (0, out') ∧
      out'.chunkCnt = 1 ∧ sparseCountChunks (fillFile 6 4) = 2 :=
  ⟨by decide, rfl, _, rfl, by decide, by decide⟩

theorem SparseFile.Valid.len_eq_totalBlocks (h : s.Valid) :
    s.len = s.totalBlocks * s.blockSize.toNat :=
  h.toInside.len_eq_totalBlocks

theorem SparseFile.Valid.len_eq_cast (h : s.Valid) :
    s.len = ((s.totalBlocks * s.blockSize.toNat : Nat) : Int) := by
  rw [h.len_eq_totalBlocks]
  exact (Int.natCast_mul _ _).symm

theorem SparseFile.Valid.endBlock_le (h : s.Valid) {bb : BackedBlock} (hbb : bb ∈ s.blocks) :
    bb.endBlock s.blockSize.toNat ≤ s.totalBlocks :=
  h.toInside.endBlock_le hbb

/-- The end of a list of blocks is the end of one of them. -/
theorem endOf_le {bs n : Nat} (blocks : List BackedBlock) {last : Nat} (hlast : last ≤ n)
    (hend : ∀ bb ∈ blocks, bb.endBlock bs ≤ n) : endOf bs blocks last ≤ n := by
  induction blocks generalizing last with
  | nil => exact hlast
  | cons bb rest ih =>
    exact ih (hend bb mem_cons_self) fun b hb => hend b (mem_cons_of_mem _ hb)

theorem SparseFile.Valid.endOf_le (h : s.Valid) :
    endOf s.blockSize.toNat s.blocks 0 ≤ s.totalBlocks :=
  Libsparse.endOf_le s.blocks (Nat.zero_le _) fun _ => h.endBlock_le

theorem SparseFile.Encodable.block (h : s.Encodable env) :
    ∀ bb ∈ s.blocks, bb.Encodable env s.blockSize :=
  fun bb hbb => ⟨h.nonempty bb hbb, h.readable bb hbb, h.fits bb hbb,
    Nat.lt_of_le_of_lt (h.endBlock_le hbb) h.blocks_lt⟩

/-- The bytes of the image behind the last block, in blocks. -/
theorem SparseFile.Encodable.tailLen_eq (h : s.Encodable env) :
    s.tailLen = ((s.totalBlocks - endOf s.blockSize.toNat s.blocks 0 : Nat) : Int)
      * s.blockSize.toNat := by
  have hend := (stream_eq h.blockSize_pos s.blocks 0 h.block).1
  rw [UInt32.toNat_zero] at hend
  unfold tailLen
  rw [hend, h.len_eq_totalBlocks, Int.ofNat_sub h.endOf_le, Int.sub_mul]

/-- The number of blocks the header announces. -/
theorem SparseFile.Valid.divRoundUp64_len (h : s.Valid) :
    divRoundUp64 s.len s.blockSize = s.totalBlocks := by
  have hpos := h.blockSize_pos
  unfold divRoundUp64
  rw [h.len_eq_totalBlocks, show ((s.totalBlocks * s.blockSize.toNat : Int) + s.blockSize.toNat - 1)
      = (s.totalBlocks * s.blockSize.toNat + (s.blockSize.toNat - 1) : Nat) by
        omega,
    ← Int.ofNat_tdiv, Nat.mul_comm, Nat.mul_add_div hpos, Nat.div_eq_of_lt (by omega),
    Nat.add_zero]

theorem SparseFile.Encodable.padWrites_flatten (h : s.Encodable env) :
    s.tailWrites.flatten
      = (gapChunks (endOf s.blockSize.toNat s.blocks 0) s.totalBlocks).flatMap
          (Chunk.encode s.blockSize.toNat) := by
  have hpos := h.blockSize_pos
  have hle := h.endOf_le
  unfold tailWrites padWrites gapChunks
  rw [h.tailLen_eq]
  generalize endOf s.blockSize.toNat s.blocks 0 = e at hle ⊢
  by_cases hlt : e < s.totalBlocks
  · have hprod : (0 : Int) < (s.totalBlocks - e : Nat) * s.blockSize.toNat :=
      Int.mul_pos (by omega) (by omega)
    rw [if_pos ⟨hprod, Int.mul_tmod_left _ _⟩, if_pos hlt, skipChunkHeader_eq hpos]
    simp [Chunk.encode, Chunk.payload]
  · have hzero : s.totalBlocks - e = 0 := by omega
    rw [hzero, if_neg (by simp), if_neg hlt]
    rfl

/-- `sparse_count_chunks` gives the number of chunks. -/
theorem SparseFile.Encodable.sparseCountChunks_eq (h : s.Encodable env) :
    sparseCountChunks s = UInt32.ofNat (s.chunks env).length := by
  have hcnt := (stream_eq h.blockSize_pos s.blocks 0 h.block).2.1
  have hpos := h.blockSize_pos
  have hlen := h.len_eq_cast
  have htail : 0 < s.tailLen ↔ endOf s.blockSize.toNat s.blocks 0 < s.totalBlocks := by
    rw [h.tailLen_eq, ← Int.natCast_mul, Int.natCast_pos, Nat.mul_pos_iff_of_pos_right hpos]
    omega
  rw [Libsparse.sparseCountChunks_eq (by omega) hpos, hcnt, chunks, length_append,
    ofNat_add]
  unfold gapChunks
  simp only [htail]
  split <;> rfl

/-- The bytes of the crc chunk. -/
def crcBytes (crc : UInt32) : List UInt8 := crcChunkHeader.encode ++ le32 crc

/-- The header of a sparse file, over plain numbers. -/
def SparseFile.header (env : Env) (s : SparseFile) (crc : Bool) : SparseHeader where
  magic := sparseHeaderMagic
  majorVersion := sparseHeaderMajorVer
  minorVersion := sparseHeaderMinorVer
  fileHdrSz := UInt16.ofNat sparseHeaderLen
  chunkHdrSz := UInt16.ofNat chunkHeaderLen
  blkSz := s.blockSize
  totalBlks := UInt32.ofNat s.totalBlocks
  totalChunks := UInt32.ofNat ((s.chunks env).length + if crc then 1 else 0)
  imageChecksum := 0

/-- The bytes of a sparse file: header, chunks and the optional crc chunk. -/
def sparseBytes (env : Env) (s : SparseFile) (crc : Bool) : List UInt8 :=
  (s.header env crc).encode ++ (s.chunks env).flatMap (Chunk.encode s.blockSize.toNat) ++
    if crc then crcBytes (streamCrc env s.blockSize s.blocks 0) else []

/-- A file whose blocks can be read has a sequence of buffers. -/
theorem SparseFile.Ordered.exists_sparseWrites (h : s.Ordered) (hread : s.Readable env)
    (crc : Bool) : ∃ ws, sparseWrites env s crc = some ws := by
  have hsome := (streamWrites_isSome_iff env s.blockSize s.blocks 0).mpr fun bb hbb =>
    (blockWrites_isSome_iff s.blockSize (h.nonempty bb hbb)).mpr (hread bb hbb)
  obtain ⟨ws, hws⟩ := isSome_iff_exists.mp hsome
  exact ⟨_, by rw [sparseWrites, hws, map_some]⟩

/-- The writer's buffers, one after the other, are the bytes of the file. -/
theorem SparseFile.Encodable.sparseWrites_flatten (h : s.Encodable env) {crc : Bool}
    {ws : List (List UInt8)} (hws : sparseWrites env s crc = some ws) :
    ws.flatten = sparseBytes env s crc := by
  obtain ⟨ws, hstream, rfl⟩ := map_eq_some_iff.mp hws
  have hflat := (stream_eq h.blockSize_pos s.blocks 0 h.block).2.2 _ hstream
  have hheader : sparseHeaderOf s.blockSize s.len (sparseCountChunks s) crc = s.header env crc := by
    unfold sparseHeaderOf header
    rw [h.sparseCountChunks_eq, h.divRoundUp64_len, ofInt_natCast]
    cases crc <;> simp [ofNat_add]
  unfold sparseBytes chunks
  rw [hheader, flatten_append, flatten_append, flatten_append, hflat, h.padWrites_flatten]
  cases crc <;> simp [crcWrites, crcBytes]

/-- `sparse_file_write` of a file the writer can handle. -/
theorem SparseFile.Encodable.sparseFileWrite_eq (h : s.Encodable env) (crc : Bool) :
    sparseFileWrite env s true crc
      = .ok (0, { content := sparseBytes env s crc, pos := (sparseBytes env s crc).length }) := by
  obtain ⟨ws, hws⟩ := h.exists_sparseWrites h.readable crc
  have htail := h.toInside.tailLen_nonneg
  have hfeed := feed_fileOps ws []
  rw [nil_append, h.sparseWrites_flatten hws] at hfeed
  unfold sparseFileWrite
  rw [writeSparseFile_sparse_eq h.blockSize_lt htail hws (accepts_fileOps ws)]
  exact congrArg (fun f => Except.ok (0, f)) hfeed

end

end AndroidCore.Libsparse
