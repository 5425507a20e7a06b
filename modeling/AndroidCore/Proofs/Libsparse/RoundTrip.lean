import AndroidCore.Proofs.Libsparse.Chunks
import AndroidCore.Proofs.Libsparse.Reader
import Mathlib.Algebra.Order.BigOperators.Group.List

/-!
# `AndroidCore.Proofs.Libsparse.RoundTrip`: writing an image and importing it again

The writer turns a sparse file into chunks (`Chunks`), and the reader turns
chunks into queued blocks (`Reader`). Here the two meet: each chunk is imported
as a block with the same cells, padded to whole blocks (`Imported`), and
queueing keeps the cells.
-/

namespace AndroidCore.Libsparse

open BackedBlock List Option UInt32

/-! ### The chunks of a file are in order -/

section
variable {env : Env} {bs last : Nat}

/-- The blocks between two block numbers are one don't-care chunk, or none. -/
theorem mem_gapChunks {next : Nat} {c : Chunk} (hc : c ∈ gapChunks last next) :
    ∃ n, 0 < n ∧ c = .dontCare n := by
  unfold gapChunks at hc
  split at hc
  · exact ⟨_, by omega, mem_singleton.mp hc⟩
  · exact absurd hc not_mem_nil

/-- A chunk of a list of blocks is the chunk of a block, or stands for a gap. -/
theorem mem_chunksOf {c : Chunk} (blocks : List BackedBlock) {last : Nat}
    (hc : c ∈ chunksOf env bs blocks last) :
    (∃ bb ∈ blocks, c = bb.chunk env bs) ∨ ∃ n, 0 < n ∧ c = .dontCare n := by
  induction blocks generalizing last with
  | nil => exact absurd hc not_mem_nil
  | cons bb rest ih =>
    rw [chunksOf, mem_append, mem_cons] at hc
    rcases hc with hgap | rfl | hrest
    · exact .inr (mem_gapChunks hgap)
    · exact .inl ⟨bb, mem_cons_self, rfl⟩
    · rcases ih hrest with ⟨b, hb, rfl⟩ | hgap
      · exact .inl ⟨b, mem_cons_of_mem _ hb, rfl⟩
      · exact .inr hgap

theorem totalOf_gapChunks {next : Nat} (h : last ≤ next) :
    totalOf bs (gapChunks last next) = next - last := by
  unfold gapChunks
  split
  · rfl
  · show 0 = next - last
    omega

theorem totalOf_append (cs cs' : List Chunk) :
    totalOf bs (cs ++ cs') = totalOf bs cs + totalOf bs cs' := by
  unfold totalOf
  rw [map_append, sum_append]

/-- Blocks in order, behind block number `last`. -/
structure Behind (bs last : Nat) (blocks : List BackedBlock) : Prop where
  ordered : blocks.Pairwise (Before bs)
  le : ∀ bb ∈ blocks, last ≤ bb.block.toNat

theorem Behind.tail (hbs : 0 < bs) {bb : BackedBlock} {rest : List BackedBlock}
    (h : Behind bs last (bb :: rest)) : Behind bs (bb.endBlock bs) rest where
  ordered := (pairwise_cons.mp h.ordered).2
  le b hb := ((pairwise_cons.mp h.ordered).1 b hb).endBlock_le hbs

end

section
variable {env : Env} {blockSize : UInt32} (hbs : 0 < blockSize.toNat) {bb : BackedBlock}
include hbs

section
variable (h : bb.Encodable env blockSize)
include h

theorem BackedBlock.Encodable.rounded_lt :
    bb.numBlocks blockSize.toNat * blockSize.toNat < 2 ^ 32 := by
  have hround := (len_le_numBlocks_mul hbs bb).2
  have hfit := h.fits
  unfold Fits at hfit
  omega

/-- The bytes of a raw chunk are the blocks of a block. -/
theorem length_of_chunk_eq_raw {bytes : List UInt8}
    (hc : bb.chunk env blockSize.toNat = .raw bytes) :
    bytes.length = bb.numBlocks blockSize.toNat * blockSize.toNat := by
  rcases fill_or_source h.nonempty h.readable with ⟨val, hval⟩ | ⟨data, hdata⟩
  · rw [chunk_of_fill hval] at hc
    cases hc
  · rw [chunk_of_source hdata, Chunk.raw.injEq] at hc
    rw [← hc, length_append, length_zeros, length_source hdata,
      Nat.add_sub_cancel' (len_le_numBlocks_mul hbs bb).1]

theorem blocks_chunk :
    (bb.chunk env blockSize.toNat).blocks blockSize.toNat = bb.numBlocks blockSize.toNat := by
  rcases fill_or_source h.nonempty h.readable with ⟨val, hval⟩ | ⟨data, hdata⟩
  · rw [chunk_of_fill hval]
    rfl
  · have hc := chunk_of_source hdata blockSize.toNat
    rw [hc, Chunk.blocks, length_of_chunk_eq_raw hbs h hc, Nat.mul_div_cancel _ hbs]

end

/-- The chunks of a list of blocks cover the block numbers up to the last one. -/
theorem totalOf_chunksOf (blocks : List BackedBlock) {last : Nat}
    (hbehind : Behind blockSize.toNat last blocks)
    (hblocks : ∀ bb ∈ blocks, bb.Encodable env blockSize) :
    last + totalOf blockSize.toNat (chunksOf env blockSize.toNat blocks last)
      = endOf blockSize.toNat blocks last := by
  induction blocks generalizing last with
  | nil => rfl
  | cons bb rest ih =>
    obtain ⟨hbb, hblocks⟩ := forall_mem_cons.mp hblocks
    have hrest := ih (hbehind.tail hbs) hblocks
    have hcons : ∀ cs, totalOf blockSize.toNat (bb.chunk env blockSize.toNat :: cs)
        = bb.numBlocks blockSize.toNat + totalOf blockSize.toNat cs := by
      intro cs
      rw [← blocks_chunk hbs hbb]
      rfl
    have hle := hbehind.le bb mem_cons_self
    rw [chunksOf, endOf, totalOf_append, totalOf_gapChunks hle, hcons, ← hrest]
    unfold endBlock
    omega

end

section
variable {env : Env} {s : SparseFile}

theorem SparseFile.Ordered.behind (h : s.Ordered) : Behind s.blockSize.toNat 0 s.blocks where
  ordered := h.ordered
  le _ _ := Nat.zero_le _

section
variable (h : s.Encodable env)
include h

/-- The chunks of a file cover it. -/
theorem SparseFile.Encodable.totalOf_chunks :
    totalOf s.blockSize.toNat (s.chunks env) = s.totalBlocks := by
  have hblocks := totalOf_chunksOf h.blockSize_pos s.blocks h.behind h.block
  have hend := h.endOf_le
  unfold SparseFile.chunks
  rw [totalOf_append, totalOf_gapChunks hend]
  omega

/-- A chunk of a file is the chunk of a block, or stands for a gap. -/
theorem SparseFile.Encodable.mem_chunks {c : Chunk} (hc : c ∈ s.chunks env) :
    (∃ bb : BackedBlock, bb.Encodable env s.blockSize ∧ c = bb.chunk env s.blockSize.toNat) ∨
      ∃ n, 0 < n ∧ c = .dontCare n := by
  rcases mem_append.mp hc with hc | hc
  · exact (mem_chunksOf s.blocks hc).imp_left fun ⟨bb, hbb, hc⟩ => ⟨bb, h.block bb hbb, hc⟩
  · exact .inr (mem_gapChunks hc)

theorem SparseFile.Encodable.chunks_blocks_pos :
    ∀ c ∈ s.chunks env, 0 < c.blocks s.blockSize.toNat := by
  intro c hc
  rcases h.mem_chunks hc with ⟨bb, hbb, rfl⟩ | ⟨n, hn, rfl⟩
  · rw [blocks_chunk h.blockSize_pos hbb]
    exact numBlocks_pos h.blockSize_pos hbb.nonempty
  · exact hn

/-- The raw chunks of a file are whole blocks. -/
theorem SparseFile.Encodable.chunks_raw {bytes : List UInt8} (hc : .raw bytes ∈ s.chunks env) :
    s.blockSize.toNat ∣ bytes.length ∧ bytes.length < 2 ^ 32 := by
  rcases h.mem_chunks hc with ⟨bb, hbb, heq⟩ | ⟨n, _, heq⟩
  · rw [length_of_chunk_eq_raw h.blockSize_pos hbb heq.symm]
    exact ⟨Nat.dvd_mul_left _ _, hbb.rounded_lt h.blockSize_pos⟩
  · cases heq

/-- The file has no fewer blocks than chunks, and than each chunk. -/
theorem SparseFile.Encodable.chunks_le :
    (s.chunks env).length ≤ s.totalBlocks ∧
      ∀ c ∈ s.chunks env, c.blocks s.blockSize.toNat ≤ s.totalBlocks := by
  rw [← h.totalOf_chunks]
  refine ⟨?_, fun c hc => single_le_sum (fun n _ => Nat.zero_le n) _ (mem_map_of_mem hc)⟩
  have hle := length_le_sum_of_one_le _ (forall_mem_map.mpr h.chunks_blocks_pos)
  rwa [length_map] at hle

end

variable {bs : Nat}

/-- A don't-care chunk behind the other chunks queues nothing. -/
theorem importBlocks_append_gap {fd : Int} (cs : List Chunk) (last next : Nat) :
    ∀ cur pos, importBlocks fd bs (cs ++ gapChunks last next) cur pos
      = importBlocks fd bs cs cur pos := by
  induction cs with
  | nil =>
    intro cur pos
    unfold gapChunks
    split <;> rfl
  | cons c cs ih =>
    intro cur pos
    rw [cons_append, importBlocks, importBlocks, ih]

end

/-! ### What a chunk is imported as -/

/-- `new` is the block that the chunk of `bb` is imported as: at the same block
number, as long as the blocks `bb` touches, with the cells of `bb` padded. -/
structure Imported (env env' : Env) (bs : Nat) (bb new : BackedBlock) : Prop where
  block_eq : new.block = bb.block
  len_eq : new.len.toNat = bb.numBlocks bs * bs
  image_eq : ∀ j, new.image env' bs j = (bb.image env bs j).map (Cell.pad bs)

/-- The bytes of one block of a padded source. -/
theorem take_drop_padded {data : List UInt8} {bs off z : Nat} (hoff : off ≤ data.length)
    (hz : off + bs ≤ data.length + z) :
    ((data ++ zeros z).drop off).take bs
      = (data.drop off).take (min bs (data.length - off)) ++
          zeros (bs - min bs (data.length - off)) := by
  rw [drop_append_of_le_length hoff, take_append, length_drop]
  congr 1
  · simp
  · unfold zeros
    rw [take_replicate]
    congr 1
    omega

section
variable {env env' : Env} {bs : Nat} (hbs : 0 < bs)
include hbs

variable {bb new : BackedBlock} (hblock : new.block = bb.block)
  (hlen : new.len.toNat = bb.numBlocks bs * bs)
include hblock hlen

/-- A block of whole blocks ends where the block it pads does. -/
theorem endBlock_of_padded : new.endBlock bs = bb.endBlock bs := by
  have hnum : new.numBlocks bs = bb.numBlocks bs := by
    generalize bb.numBlocks bs = n at hlen ⊢
    unfold numBlocks
    rw [hlen, Nat.add_sub_assoc hbs, Nat.mul_comm, Nat.mul_add_div hbs,
      Nat.div_eq_of_lt (by omega), Nat.add_zero]
  unfold endBlock
  rw [hblock, hnum]

/-- It is enough to compare the cells, block by block of the source. -/
theorem Imported.of_cells
    (hcell : ∀ off, off < bb.len.toNat → off + bs ≤ bb.numBlocks bs * bs →
      env'.cell new.type off bs
        = (env.cell bb.type off (min bs (bb.len.toNat - off))).pad bs) :
    Imported env env' bs bb new := by
  have hend := endBlock_of_padded hbs hblock hlen
  refine ⟨hblock, hlen, fun j => ?_⟩
  rcases Nat.lt_or_ge j bb.block.toNat with hj | hj
  · rw [image_of_lt hj, image_of_lt (by rwa [hblock])]
    rfl
  rcases Nat.lt_or_ge j (bb.endBlock bs) with hje | hje
  · have hoff : (j - bb.block.toNat) * bs < bb.len.toNat :=
      (lt_numBlocks_iff hbs bb _).mp (by unfold endBlock at hje; omega)
    have hnext : (j - bb.block.toNat) * bs + bs ≤ bb.numBlocks bs * bs := by
      have hle : j - bb.block.toNat + 1 ≤ bb.numBlocks bs := by
        unfold endBlock at hje
        omega
      have := Nat.mul_le_mul_right bs hle
      rwa [Nat.add_mul, Nat.one_mul] at this
    rw [image_of_mem hj hje, image_of_mem (by rwa [hblock]) (by rwa [hend]), hblock,
      Nat.min_eq_left (by omega), hcell _ hoff hnext]
    rfl
  · rw [image_of_le hje, image_of_le (by rwa [hend])]
    rfl

/-- A raw chunk is imported as a range of the file with the same cells. -/
theorem imported_raw {file rest data : List UInt8} {fd : Int} {pos : Nat} (hpos : 0 < bb.len.toNat)
    (hfd : env'.fd fd = some file) (hdata : bb.source env = some data) (hfile : file.drop pos
      = data ++ zeros (bb.numBlocks bs * bs - bb.len.toNat) ++ rest)
    (htype : new.type = .fd fd pos) :
    Imported env env' bs bb new := by
  have hdlen := length_source hdata
  have hfilelen := congrArg length hfile
  rw [length_drop, length_append, length_append, length_zeros] at hfilelen
  refine Imported.of_cells hbs hblock hlen fun off hoff hnext => ?_
  have hrange : fileRange file (pos + off) bs
      = some (((data ++ zeros (bb.numBlocks bs * bs - bb.len.toNat)).drop off).take bs) := by
    have hto : ((pos : Int) + off).toNat = pos + off := by omega
    unfold fileRange
    rw [if_pos (by omega), hto, ← drop_drop, hfile, drop_append_of_le_length
      (by rw [length_append]; omega), take_append_of_le_length
      (by rw [length_drop, length_append, length_zeros]; omega)]
  have hmin : min (min bs (bb.len.toNat - off)) (bb.len.toNat - off)
      = min bs (bb.len.toNat - off) := by omega
  rw [cell_of_source hpos hdata (by omega)]
  simp only [htype, Env.cell, hfd, bind_some, hrange, Cell.pad, length_take,
    length_drop, hdlen, hmin]
  rw [take_drop_padded (by omega) (by omega), hdlen]

/-- A fill chunk is imported as a fill of whole blocks. -/
theorem imported_fill {val : UInt32} (hval : bb.type = .fill val) (htype : new.type = .fill val) :
    Imported env env' bs bb new :=
  Imported.of_cells hbs hblock hlen fun off _ _ => by
    simp [htype, hval, Env.cell, Cell.pad]

end

/-! ### What a whole file is imported as -/

variable {env env' : Env}

/-- Every block of the list is imported. -/
theorem forall₂_imported {blockSize : UInt32} (hbs : 0 < blockSize.toNat) {file : List UInt8}
    {fd : Int} (hfd : env'.fd fd = some file) (blocks : List BackedBlock) {last pos : Nat}
    {rest : List UInt8} (hbehind : Behind blockSize.toNat last blocks)
    (hblocks : ∀ bb ∈ blocks, bb.Encodable env blockSize)
    (hfile : file.drop pos = (chunksOf env blockSize.toNat blocks last).flatMap (Chunk.encode
      blockSize.toNat) ++ rest) :
    List.Forall₂ (Imported env env' blockSize.toNat) blocks
      (importBlocks fd blockSize.toNat (chunksOf env blockSize.toNat blocks last) last pos) := by
  induction blocks generalizing last pos with
  | nil => exact .nil
  | cons bb blocks ih =>
    obtain ⟨hbb, hblocks⟩ := forall_mem_cons.mp hblocks
    have hle := hbehind.le bb mem_cons_self
    rw [chunksOf] at hfile ⊢
    -- The gap in front of the block queues nothing.
    generalize hgaps : gapChunks last bb.block.toNat = gap at hfile ⊢
    have hgap : ∀ cs, importBlocks fd blockSize.toNat (gap ++ cs) last pos
        = importBlocks fd blockSize.toNat cs bb.block.toNat
            (pos + (gap.flatMap (Chunk.encode blockSize.toNat)).length) := by
      intro cs
      rw [← hgaps]
      unfold gapChunks
      split
      · simp only [singleton_append, importBlocks, Chunk.importBlock, toList_none,
          nil_append, Chunk.blocks, flatMap_cons, flatMap_nil, append_nil]
        rw [Nat.add_sub_cancel' hle]
      · rw [show last = bb.block.toNat by omega]
        rfl
    rw [flatMap_append, append_assoc] at hfile
    have hchunk := drop_add_of_drop hfile
    rw [hgap]
    rw [flatMap_cons, append_assoc] at hchunk
    have hnext := drop_add_of_drop hchunk
    have hrec := ih (hbehind.tail hbs) hblocks hnext
    have hround := (len_le_numBlocks_mul hbs bb).1
    have hlt := hbb.rounded_lt hbs
    rw [importBlocks, blocks_chunk hbs hbb]
    rcases fill_or_source hbb.nonempty hbb.readable with ⟨val, hval⟩ | ⟨data, hdata⟩
    · rw [chunk_of_fill hval] at hrec ⊢
      refine .cons (imported_fill hbs UInt32.ofNat_toNat ?_ hval rfl) hrec
      rw [toNat_ofNat_of_lt' hlt]
    · rw [chunk_of_source hdata] at hrec hchunk ⊢
      rw [Chunk.encode, append_assoc] at hchunk
      have hpayload := drop_add_of_drop hchunk
      refine .cons (imported_raw hbs UInt32.ofNat_toNat ?_ hbb.nonempty hfd hdata hpayload rfl) hrec
      rw [toNat_ofNat', length_append, length_zeros,
        length_source hdata, Nat.add_sub_cancel' hround, Nat.mod_eq_of_lt hlt]

variable {blocks news : List BackedBlock}

theorem exists_of_forall₂ {R : BackedBlock → BackedBlock → Prop} (h : List.Forall₂ R blocks news)
    {new : BackedBlock} (hnew : new ∈ news) : ∃ bb ∈ blocks, R bb new := by
  induction h with
  | nil => cases hnew
  | @cons bb new' blocks news hab _ ih =>
    rcases mem_cons.mp hnew with rfl | hmem
    · exact ⟨bb, mem_cons_self, hab⟩
    · obtain ⟨bb', hbb', hr⟩ := ih hmem
      exact ⟨bb', mem_cons_of_mem _ hbb', hr⟩

/-- Blocks that are imported one by one have the image of the list, padded. -/
theorem imageOf_of_forall₂ {bs : Nat} (h : List.Forall₂ (Imported env env' bs) blocks news)
    (j : Nat) : imageOf env' bs news j = (imageOf env bs blocks j).map (Cell.pad bs) := by
  induction h with
  | nil => rfl
  | cons hab _ ih => rw [imageOf_cons, imageOf_cons, hab.image_eq, ih, map_or]

/-- Imported blocks are in order when the blocks are. -/
theorem pairwise_of_forall₂ {bs : Nat} (hbs : 0 < bs)
    (h : List.Forall₂ (Imported env env' bs) blocks news) (hord : blocks.Pairwise (Before bs)) :
    news.Pairwise (Before bs) := by
  induction h with
  | nil => exact .nil
  | @cons bb new blocks news hab hrest ih =>
    obtain ⟨hhead, htail⟩ := pairwise_cons.mp hord
    refine pairwise_cons.mpr ⟨fun new' hnew' => ?_, ih htail⟩
    obtain ⟨bb', hbb', himp⟩ := exists_of_forall₂ hrest hnew'
    rw [before_iff hbs, endBlock_of_padded hbs hab.block_eq hab.len_eq, himp.block_eq]
    exact (hhead bb' hbb').endBlock_le hbs

/-- Queueing blocks in order behind a list, one after the other: the image is
that of all blocks, as long as none of them ends past `2 ^ 32` bytes. -/
theorem imageOf_foldl_pushBlock (env : Env) {blockSize : UInt32} (hbs : 0 < blockSize.toNat)
    (news : List BackedBlock) {old : List BackedBlock}
    (hord : (old ++ news).Pairwise (Before blockSize.toNat))
    (hbound : ∀ b ∈ old ++ news, b.block.toNat * blockSize.toNat + b.len.toNat < 2 ^ 32) :
    ∀ j, imageOf env blockSize.toNat (news.foldl (pushBlock blockSize) old) j
      = (imageOf env blockSize.toNat old j).or (imageOf env blockSize.toNat news j) := by
  induction news generalizing old with
  | nil =>
    intro j
    rw [imageOf_nil, or_none]
    rfl
  | cons new rest ih =>
    intro j
    obtain ⟨hold, hnews, hcross⟩ := pairwise_append.mp hord
    obtain ⟨hnew, hrest⟩ := pairwise_cons.mp hnews
    have hbefore : ∀ b ∈ old, Before blockSize.toNat b new :=
      fun b hb => hcross b hb new mem_cons_self
    have hnewbound := hbound new (mem_append_right _ mem_cons_self)
    -- A merged block ends where the new one does.
    have hmerge : ∀ last, old.getLast? = some last → Mergeable blockSize last new →
        last.block.toNat * blockSize.toNat + (last.len.toNat + new.len.toNat)
          = new.block.toNat * blockSize.toNat + new.len.toNat ∧
        (merged last new).len.toNat = last.len.toNat + new.len.toNat := by
      intro last hlast hm
      have := adjacent_of_mergeable hbs (hbefore last (mem_of_getLast? hlast)) hm
      simp only [merged, UInt32.toNat_add]
      exact ⟨by omega, Nat.mod_eq_of_lt (by omega)⟩
    have hord' : (pushBlock blockSize old new ++ rest).Pairwise (Before blockSize.toNat) := by
      refine pairwise_append.mpr ⟨pairwise_pushBlock hold hbefore, hrest, ?_⟩
      refine forall_mem_pushBlock (fun b hb c hc => hcross b hb c (mem_cons_of_mem _ hc))
        hnew fun last hlast hm c hc => ?_
      have hnc := hnew c hc
      obtain ⟨hends, hmlen⟩ := hmerge last hlast hm
      unfold Before at hnc ⊢
      show last.block.toNat * _ + _ ≤ _
      omega
    have hbound' : ∀ b ∈ pushBlock blockSize old new ++ rest,
        b.block.toNat * blockSize.toNat + b.len.toNat < 2 ^ 32 := by
      have hpush : ∀ b ∈ pushBlock blockSize old new,
          b.block.toNat * blockSize.toNat + b.len.toNat < 2 ^ 32 := by
        refine forall_mem_pushBlock (fun b hb => hbound b (mem_append_left _ hb))
          hnewbound fun last hlast hm => ?_
        obtain ⟨hends, hmlen⟩ := hmerge last hlast hm
        show last.block.toNat * _ + _ < _
        omega
      exact forall_mem_append.mpr
        ⟨hpush, fun b hb => hbound b (mem_append_right _ (mem_cons_of_mem _ hb))⟩
    rw [foldl_cons, ih hord' hbound' j, imageOf_pushBlock hbs env hbefore
      (fun last hlast hm => by have := hmerge last hlast hm; omega), imageOf_cons,
      Option.or_assoc]

/-! ### Importing the bytes of a file -/

/-- The import of a file that starts with a header of the usual size: the loop
over the chunks behind it, and the check of the number of blocks. -/
theorem sparseFileImport_header (hdr : SparseHeader) (rest : List UInt8) (fd : Int)
    (hok : headerOk hdr = true) (hsz : hdr.fileHdrSz = UInt16.ofNat sparseHeaderLen) (crc : Bool) :
    sparseFileImport (hdr.encode ++ rest) fd crc
      = orNull do
          let (s, curBlock) ← readChunksLoop (hdr.encode ++ rest) fd hdr.chunkHdrSz
            hdr.totalChunks.toNat (sparseFileNew hdr.blkSz (hdr.totalBlks.toNat * hdr.blkSz.toNat))
            0 sparseHeaderLen (if crc then some 0 else none)
          if hdr.totalBlks ≠ curBlock then throw eInval
          return s := by
  have hread : readAll (hdr.encode ++ rest) 0 sparseHeaderLen
      = .ok (hdr.encode, sparseHeaderLen) := by
    have := readAll_eq (show (hdr.encode ++ rest).drop 0 = hdr.encode ++ rest from rfl)
    rwa [SparseHeader.length_encode] at this
  have hpos : sparseHeaderLen + (hdr.fileHdrSz.toNat - sparseHeaderLen) = sparseHeaderLen := by
    rw [hsz]
    rfl
  unfold sparseFileImport sparseFileRead sparseFileReadSparse
  simp [hread, bind, Except.bind, SparseHeader.decode_encode, hok, hpos]

section
variable {env : Env} {s : SparseFile}

theorem headerOk_header (crc : Bool) : headerOk (s.header env crc) = true := rfl

/-- The bytes of a file behind the header. -/
theorem drop_sparseBytes (env : Env) (s : SparseFile) (crc : Bool) :
    (sparseBytes env s crc).drop sparseHeaderLen
      = (s.chunks env).flatMap (Chunk.encode s.blockSize.toNat) ++
          if crc then crcBytes (streamCrc env s.blockSize s.blocks 0) else [] := by
  unfold sparseBytes
  rw [append_assoc, drop_left' (SparseHeader.length_encode _)]

/-- The import of the bytes of a file, as a run of the loop over its chunks. -/
theorem sparseFileImport_sparseBytes (crc : Bool) (fd : Int) (htotal : s.totalBlocks < 2 ^ 32)
    (hcount : (s.chunks env).length + (if crc then 1 else 0) < 2 ^ 32) :
    sparseFileImport (sparseBytes env s crc) fd crc
      = orNull do
          let (s', curBlock) ← readChunksLoop (sparseBytes env s crc) fd
            (UInt16.ofNat chunkHeaderLen) ((s.chunks env).length + if crc then 1 else 0)
            (sparseFileNew s.blockSize (s.totalBlocks * s.blockSize.toNat))
            (UInt32.ofNat 0) sparseHeaderLen (if crc then some 0 else none)
          if UInt32.ofNat s.totalBlocks ≠ curBlock then throw eInval
          return s' := by
  have hchunks : (s.header env crc).totalChunks.toNat
      = (s.chunks env).length + if crc then 1 else 0 := by
    show (ofNat _).toNat = _
    rw [toNat_ofNat_of_lt' hcount]
  have hblocks : (s.header env crc).totalBlks.toNat = s.totalBlocks := by
    show (ofNat _).toNat = _
    rw [toNat_ofNat_of_lt' htotal]
  have hrun := sparseFileImport_header (s.header env crc)
    ((s.chunks env).flatMap (Chunk.encode s.blockSize.toNat) ++
      if crc then crcBytes (streamCrc env s.blockSize s.blocks 0) else []) fd
    (headerOk_header crc) rfl crc
  rw [hchunks, hblocks, ← append_assoc] at hrun
  exact hrun

variable (h : s.Encodable env)
  (hsmall : ∀ c ∈ s.chunks env, c.blocks s.blockSize.toNat < 2 ^ 31)
include h hsmall

/-- The loop over the chunks of a file: it leaves the blocks of the chunks
queued, in front of whatever follows the chunks. -/
theorem SparseFile.Encodable.readChunksLoop_chunks (crc : Bool)
    (fd : Int) (n : Nat) (sum : Option UInt32) :
    ∃ s' : SparseFile,
      readChunksLoop (sparseBytes env s crc) fd (UInt16.ofNat chunkHeaderLen)
          ((s.chunks env).length + n)
          (sparseFileNew s.blockSize (s.totalBlocks * s.blockSize.toNat))
          (UInt32.ofNat 0) sparseHeaderLen sum
        = readChunksLoop (sparseBytes env s crc) fd (UInt16.ofNat chunkHeaderLen) n s'
            (UInt32.ofNat s.totalBlocks)
            (sparseHeaderLen + ((s.chunks env).flatMap (Chunk.encode s.blockSize.toNat)).length)
            (sum.map (sparseCrc32 · ((s.chunks env).flatMap (Chunk.expand s.blockSize.toNat)))) ∧
      s'.len = s.len ∧ s'.blockSize = s.blockSize ∧
      s'.blocks = (importBlocks fd s.blockSize.toNat (s.chunks env) 0 sparseHeaderLen).foldl
        (pushBlock s.blockSize) [] := by
  have htotal := h.totalOf_chunks
  have hlt := h.blocks_lt
  have hnew : ∀ b ∈ (sparseFileNew s.blockSize (s.totalBlocks * s.blockSize.toNat)).blocks,
      b.block.toNat < 0 := forall_mem_nil _
  obtain ⟨s', hrun, hlen, hsize, hlist⟩ :=
    readChunksLoop_eq fd h.blockSize_pos n (s.chunks env)
      (sparseFileNew s.blockSize (s.totalBlocks * s.blockSize.toNat)) 0 sum rfl
      (fun c hc => ⟨hsmall c hc, fun _ hraw => h.chunks_raw (hraw ▸ hc)⟩)
      h.chunks_blocks_pos (drop_sparseBytes env s crc)
      (by omega) hnew
  rw [Nat.zero_add, htotal] at hrun
  exact ⟨s', hrun, hlen.trans h.len_eq_totalBlocks.symm, hsize, hlist⟩

/-- The import of the bytes of a file without a crc chunk. -/
theorem SparseFile.Encodable.sparseFileImport_eq (hcount : (s.chunks env).length < 2 ^ 32)
    (fd : Int) :
    ∃ s' : SparseFile,
      sparseFileImport (sparseBytes env s false) fd false = .ok (some s') ∧
      s'.len = s.len ∧ s'.blockSize = s.blockSize ∧
      s'.blocks = (importBlocks fd s.blockSize.toNat (s.chunks env) 0 sparseHeaderLen).foldl
        (pushBlock s.blockSize) [] := by
  obtain ⟨s', hrun, hprops⟩ := h.readChunksLoop_chunks hsmall false fd 0 none
  refine ⟨s', ?_, hprops⟩
  rw [sparseFileImport_sparseBytes false fd h.blocks_lt hcount]
  simp only [Bool.false_eq_true, if_false]
  rw [hrun]
  simp [readChunksLoop, bind, Except.bind, pure, Except.pure, orNull]

end

/-! ### The round trip -/

/-- Importing `bytes` gives back the sparse file `s`: the same block size, the
same length and the same image, with the cells padded to whole blocks. The
imported blocks refer to the descriptor `bytes` are read from, so the image is
read in an environment where that descriptor holds `bytes`. -/
def RoundTrips (env : Env) (s : SparseFile) (bytes : List UInt8) : Prop :=
  ∀ (fd : Int) (env' : Env), env'.fd fd = some bytes →
    ∃ s' : SparseFile,
      sparseFileImport bytes fd false = .ok (some s') ∧
      s'.blockSize = s.blockSize ∧ s'.len = s.len ∧
      ∀ j, s'.image env' j = (s.image env j).map (Cell.pad s.blockSize.toNat)

theorem SparseFile.Encodable.roundTrips {env : Env} {s : SparseFile} (h : s.Encodable env)
    (hbs : 2 ≤ s.blockSize.toNat) (hlen : s.len < 2 ^ 32) :
    RoundTrips env s (sparseBytes env s false) := by
  intro fd env' hfd
  have hpos := h.blockSize_pos
  -- The image has fewer than `2 ^ 31` blocks, so every size the reader computes is exact.
  have hbytes := h.len_eq_cast
  have htotal : s.totalBlocks < 2 ^ 31 := by
    have := Nat.mul_le_mul_left s.totalBlocks hbs
    omega
  have hsmall : ∀ c ∈ s.chunks env, c.blocks s.blockSize.toNat < 2 ^ 31 :=
    fun c hc => Nat.lt_of_le_of_lt (h.chunks_le.2 c hc) htotal
  have hcount : (s.chunks env).length < 2 ^ 32 := Nat.lt_of_le_of_lt h.chunks_le.1 h.blocks_lt
  obtain ⟨s', himport, hlen', hsize', hlist⟩ := h.sparseFileImport_eq hsmall hcount fd
  refine ⟨s', himport, hsize', hlen', fun j => ?_⟩
  have hfile := drop_sparseBytes env s false
  unfold SparseFile.chunks at hfile hlist
  rw [flatMap_append, append_assoc] at hfile
  have himp := forall₂_imported hpos hfd s.blocks h.behind h.block hfile
  have hnews : importBlocks fd s.blockSize.toNat
        (chunksOf env s.blockSize.toNat s.blocks 0 ++
          gapChunks (endOf s.blockSize.toNat s.blocks 0) s.totalBlocks) 0 sparseHeaderLen
      = importBlocks fd s.blockSize.toNat (chunksOf env s.blockSize.toNat s.blocks 0) 0
          sparseHeaderLen := importBlocks_append_gap _ _ _ _ _
  rw [hnews] at hlist
  unfold SparseFile.image
  rw [hsize', hlist, imageOf_foldl_pushBlock env' hpos _
    (by exact pairwise_of_forall₂ hpos himp h.ordered), imageOf_nil,
    none_or, imageOf_of_forall₂ himp]
  intro new hnew
  obtain ⟨bb, hbb, hbbnew⟩ := exists_of_forall₂ himp (by simpa using hnew)
  have hend := h.endBlock_le hbb
  have hmul := Nat.mul_le_mul_right s.blockSize.toNat hend
  unfold endBlock at hmul
  rw [Nat.add_mul] at hmul
  rw [hbbnew.block_eq, hbbnew.len_eq]
  omega

end AndroidCore.Libsparse
