import AndroidCore.Proofs.Libsparse.RoundTripBound

/-!
# `AndroidCore.Proofs.Libsparse.Checksum`: the two checksums of an image

The reader recomputes the checksum over the whole expanded image. The writer
does not: a don't-care chunk adds nothing to its checksum, and a fill chunk adds
one block of fill words however many blocks it covers (`Chunk.summed`). So an
image with a crc chunk is accepted for certain when it has no don't-care chunk
and no fill of more than one block (`Chunk.Plain`). In any other image the writer
sums fewer bytes than the reader, and the image is accepted exactly when the two
checksums happen to agree.
-/

namespace AndroidCore.Libsparse

open List Chunk

/-! ### What the writer sums -/

/-- The bytes the writer feeds into its checksum for one chunk. -/
def Chunk.summed (blockSize : Nat) : Chunk → List UInt8
  | .raw bytes => bytes
  | .fill val _ => fillBytes val blockSize
  | .dontCare _ => []

theorem summed_gapChunks (bs last next : Nat) : (gapChunks last next).flatMap (summed bs) = [] := by
  unfold gapChunks
  split <;> rfl

theorem fillBytes_four (val : UInt32) : fillBytes val 4 = le32 val := rfl

/-- The checksum loop of a fill chunk. -/
theorem fillCrcLoop_eq (val : UInt32) (count : Nat) :
    ∀ crc, fillCrcLoop val count crc = sparseCrc32 crc (fillBytes val (4 * count)) := by
  induction count with
  | zero => intro crc; exact (sparseCrc32_nil crc).symm
  | succ count ih =>
    intro crc
    rw [fillCrcLoop, ih, ← sparseCrc32_append, ← fillBytes_four,
      fillBytes_append val (Nat.dvd_refl 4), Nat.mul_succ, Nat.add_comm]

section
variable {env : Env} {blockSize : UInt32} (hbs : 0 < blockSize.toNat)
  (h4 : 4 ∣ blockSize.toNat)
include hbs h4

theorem blockCrc_eq {bb : BackedBlock} (hbb : bb.Encodable env blockSize) (crc : UInt32) :
    blockCrc env blockSize bb crc
      = sparseCrc32 crc ((bb.chunk env blockSize.toNat).summed blockSize.toNat) := by
  rcases fill_or_source hbb.nonempty hbb.readable with ⟨val, hval⟩ | ⟨data, hdata⟩
  · have hwords : 4 * (blockSize / 4).toNat = blockSize.toNat := by
      exact Nat.mul_div_cancel' h4
    rw [chunk_of_fill hval]
    unfold blockCrc
    simp only [hval, fillCrcLoop_eq, hwords, summed]
  · have hzero := toNat_zeroLen_of_fits hbs hbb.fits
    rw [blockCrc_of_source hdata, chunk_of_source hdata, ← hzero]
    simp only [summed, sparseCrc32_append]
    by_cases hz : align bb.len blockSize - bb.len = 0
    · rw [hz]
      exact (sparseCrc32_nil _).symm
    · rw [if_pos hz]

/-- The checksum of the writer is that of the summed bytes. -/
theorem streamCrc_eq (blocks : List BackedBlock) (last : Nat) (crc : UInt32)
    (hblocks : ∀ bb ∈ blocks, bb.Encodable env blockSize) :
    streamCrc env blockSize blocks crc
      = sparseCrc32 crc ((chunksOf env blockSize.toNat blocks last).flatMap
          (summed blockSize.toNat)) := by
  induction blocks generalizing last crc with
  | nil => exact (sparseCrc32_nil crc).symm
  | cons bb rest ih =>
    obtain ⟨hbb, hblocks⟩ := forall_mem_cons.mp hblocks
    have hrest := ih (bb.endBlock blockSize.toNat) (blockCrc env blockSize bb crc) hblocks
    rw [chunksOf, flatMap_append, summed_gapChunks, nil_append, flatMap_cons,
      sparseCrc32_append, ← blockCrc_eq hbs h4 hbb, ← hrest]
    rfl

end

/-! ### The crc chunk -/

/-- Reading the crc chunk: it is accepted when its word is the checksum so far. -/
theorem readChunk_crcBytes {file : List UInt8} {pos : Nat} {c : UInt32}
    (hfile : file.drop pos = crcBytes c) (fd : Int) (s : SparseFile) (cur crc : UInt32) :
    readChunk file fd (UInt16.ofNat chunkHeaderLen) s cur pos (some crc)
      = if c ≠ crc then .error eInval
        else .ok (s, cur, pos + chunkHeaderLen + 4, some crc) := by
  have hread := readAll_eq hfile
  have hdata := drop_add_of_drop hfile
  rw [ChunkHeader.length_encode] at hread hdata
  rw [← append_nil (le32 c)] at hdata
  have hword := readAll_eq hdata
  rw [length_le32] at hword
  have hval : le32At (le32 c) 0 = c := ofNat_leValue_le32 c
  have hskip : pos + chunkHeaderLen + ((UInt16.ofNat chunkHeaderLen).toNat - chunkHeaderLen)
      = pos + chunkHeaderLen := rfl
  have hcrc : processCrc32Chunk file 4 (pos + chunkHeaderLen) (some crc)
      = if c ≠ crc then .error eInval else .ok (pos + chunkHeaderLen + 4) := by
    unfold processCrc32Chunk
    simp only [hword, bind, Except.bind, hval]
    rfl
  have hproc : processChunk file fd s (UInt16.ofNat chunkHeaderLen) crcChunkHeader cur
        (pos + chunkHeaderLen) (some crc)
      = if c ≠ crc then .error eInval
        else .ok (0, s, some crc, pos + chunkHeaderLen + 4) := by
    unfold processChunk
    rw [if_neg (show crcChunkHeader.chunkType ≠ chunkTypeRaw by decide),
      if_neg (show crcChunkHeader.chunkType ≠ chunkTypeFill by decide),
      if_neg (show crcChunkHeader.chunkType ≠ chunkTypeDontCare by decide),
      if_pos (show crcChunkHeader.chunkType = chunkTypeCrc32 from rfl),
      show crcChunkHeader.totalSz - (UInt16.ofNat chunkHeaderLen).toUInt32 = 4 from rfl]
    simp only [hcrc]
    split <;> rfl
  unfold readChunk
  simp only [hread, bind, Except.bind, hskip, ChunkHeader.decode_encode, hproc]
  by_cases hne : c ≠ crc
  · simp [if_pos hne]
  · simp only [if_neg hne, show UInt32.ofInt 0 = 0 from rfl,
      UInt32.add_zero]
    rfl

section
variable {env : Env} {s : SparseFile}

/-- The import of an image with a crc chunk succeeds exactly when the summed
bytes and the image have the same checksum. -/
theorem SparseFile.Encodable.import_crc_iff (h : s.Encodable env) (h4 : 4 ∣ s.blockSize.toNat)
    (hsmall : ∀ c ∈ s.chunks env, c.blocks s.blockSize.toNat < 2 ^ 31)
    (hcount : (s.chunks env).length + 1 < 2 ^ 32) (fd : Int) :
    (∃ s', sparseFileImport (sparseBytes env s true) fd true = .ok (some s')) ↔
      sparseCrc32 0 ((s.chunks env).flatMap (summed s.blockSize.toNat))
        = sparseCrc32 0 ((s.chunks env).flatMap (expand s.blockSize.toNat)) := by
  have hsum : streamCrc env s.blockSize s.blocks 0
      = sparseCrc32 0 ((s.chunks env).flatMap (summed s.blockSize.toNat)) := by
    rw [streamCrc_eq h.blockSize_pos h4 s.blocks 0 0 h.block, SparseFile.chunks,
      flatMap_append, summed_gapChunks, append_nil]
  obtain ⟨s', hrun, _⟩ := h.readChunksLoop_chunks hsmall true fd 1 (some 0)
  have hcrc := drop_add_of_drop (drop_sparseBytes env s true)
  rw [hsum] at hcrc
  have hlast := readChunk_crcBytes hcrc fd s' (UInt32.ofNat s.totalBlocks)
    (sparseCrc32 0 ((s.chunks env).flatMap (expand s.blockSize.toNat)))
  rw [sparseFileImport_sparseBytes true fd h.blocks_lt hcount, if_pos rfl, if_pos rfl, hrun,
    Option.map_some]
  simp only [readChunksLoop, hlast]
  by_cases heq : sparseCrc32 0 ((s.chunks env).flatMap (summed s.blockSize.toNat))
      = sparseCrc32 0 ((s.chunks env).flatMap (expand s.blockSize.toNat))
  · simp [heq, bind, Except.bind, pure, Except.pure, orNull]
  · simp [heq, bind, Except.bind, orNull, eInval]

end

/-! ### Plain chunks -/

/-- A chunk that the writer sums as a whole: raw bytes, or a fill of one block. -/
def Chunk.Plain : Chunk → Prop
  | .raw _ => True
  | .fill _ n => n = 1
  | .dontCare _ => False

instance : DecidablePred Chunk.Plain := fun c => by
  cases c <;> unfold Plain <;> infer_instance

section
variable {bs : Nat} {cs : List Chunk}

/-- Of plain chunks the writer sums the whole image. -/
theorem flatMap_summed_eq (h : ∀ c ∈ cs, c.Plain) :
    cs.flatMap (summed bs) = cs.flatMap (expand bs) := by
  refine flatMap_congr fun c hmem => ?_
  have hc := h c hmem
  cases c with
  | raw bytes => rfl
  | fill val n =>
    obtain rfl : n = 1 := hc
    rw [summed, expand, Nat.one_mul]
  | dontCare n => exact hc.elim

/-- Of any other chunk it leaves bytes out. -/
theorem length_summed_lt (hbs : 0 < bs) {c : Chunk} (hpos : 0 < c.blocks bs) (h : ¬ c.Plain) :
    (c.summed bs).length < (c.expand bs).length := by
  cases c with
  | raw bytes => exact absurd trivial h
  | fill val n =>
    have hn : 1 < n := Nat.lt_of_le_of_ne hpos (Ne.symm h)
    simp only [summed, expand, length_fillBytes]
    exact (Nat.lt_mul_iff_one_lt_left hbs).mpr hn
  | dontCare n =>
    simp only [summed, expand, length_zeros, length_nil]
    exact Nat.mul_pos hpos hbs

/-- One chunk that is not plain is enough for the writer to sum fewer bytes than the image
has. -/
theorem length_flatMap_summed_lt (hbs : 0 < bs) (hpos : ∀ c ∈ cs, 0 < c.blocks bs)
    (h : ∃ c ∈ cs, ¬ c.Plain) :
    (cs.flatMap (summed bs)).length < (cs.flatMap (expand bs)).length := by
  rw [length_flatMap, length_flatMap]
  obtain ⟨c, hc, hplain⟩ := h
  refine sum_lt_sum _ _ (fun d hd => ?_) ⟨c, hc, length_summed_lt hbs (hpos c hc) hplain⟩
  by_cases hd' : d.Plain
  · have heq := @flatMap_summed_eq bs [d] (forall_mem_singleton.mpr hd')
    rw [flatMap_singleton, flatMap_singleton] at heq
    exact Nat.le_of_eq (congrArg length heq)
  · exact Nat.le_of_lt (length_summed_lt hbs (hpos d hd) hd')

end

/-! ### Main result -/

/-- CRC agreement. Take a sparse file the writer can encode, with a block size
that is a multiple of 4, chunks of fewer than `2 ^ 31` blocks, and fewer than
`2 ^ 32 - 1` chunks, and write it with a crc chunk. If it has no don't-care chunk
and every fill covers one block, an import that checks the crc accepts it. If not,
the writer has summed fewer bytes than the image has, and the import accepts it
only if these two strings of different lengths have the same CRC by accident. -/
theorem sparseFile_crc_accepted_iff (env : Env) (s : SparseFile) (hs : s.Encodable env)
    (h4 : 4 ∣ s.blockSize.toNat) (hsmall : ∀ c ∈ s.chunks env, c.blocks s.blockSize.toNat < 2 ^ 31)
    (hcount : (s.chunks env).length + 1 < 2 ^ 32) (fd : Int) :
    ∃ f, sparseFileWrite env s true true = .ok (0, f) ∧
      ((∀ c ∈ s.chunks env, c.Plain) →
        ∃ s', sparseFileImport f.content fd true = .ok (some s')) ∧
      ((∃ c ∈ s.chunks env, ¬ c.Plain) →
        ((s.chunks env).flatMap (summed s.blockSize.toNat)).length
          < ((s.chunks env).flatMap (expand s.blockSize.toNat)).length ∧
        ((∃ s', sparseFileImport f.content fd true = .ok (some s')) ↔
          sparseCrc32 0 ((s.chunks env).flatMap (summed s.blockSize.toNat))
            = sparseCrc32 0 ((s.chunks env).flatMap (expand s.blockSize.toNat)))) := by
  have hiff := hs.import_crc_iff h4 hsmall hcount fd
  refine ⟨_, hs.sparseFileWrite_eq true, fun hplain => hiff.mpr ?_, fun hrest => ⟨?_, hiff⟩⟩
  · rw [flatMap_summed_eq hplain]
  · exact length_flatMap_summed_lt hs.blockSize_pos hs.chunks_blocks_pos hrest

-- Such accidents exist: the CRC of four bytes 0xff does not change with zeros behind them.
example : sparseCrc32 0 [0xff, 0xff, 0xff, 0xff]
    = sparseCrc32 0 ([0xff, 0xff, 0xff, 0xff] ++ zeros 4) := by decide +kernel

/-- A file of one filled block. -/
def oneBlockFile : SparseFile where
  len := 4
  backedBlockList :=
    { dataBlocks := [{ block := 0, len := 4, type := .fill 0x2a }]
      lastUsed := none, blockSize := 4 }

theorem sparseFile_crc_accepted_oneBlockFile :
    (∀ c ∈ oneBlockFile.chunks Env.blank, c.Plain) ∧
      ∃ f, sparseFileWrite Env.blank oneBlockFile true true = .ok (0, f) ∧
        ∃ s', sparseFileImport f.content 3 true = .ok (some s') := by
  have hvalid : oneBlockFile.Valid :=
    { blockSize_pos := by decide, nonempty := by decide, ordered := by decide
      len_eq := ⟨1, rfl⟩, inside := by decide }
  obtain ⟨f, hwrite, hplain, _⟩ := sparseFile_crc_accepted_iff Env.blank oneBlockFile
    { toValid := hvalid, blockSize_lt := by decide, readable := by decide, fits := by decide
      blocks_lt := by decide }
    (by decide) (by decide) (by decide) 3
  exact ⟨by decide, f, hwrite, hplain (by decide)⟩

theorem twoBlockFile_encodable : twoBlockFile.Encodable Env.blank where
  toValid := twoBlockFile_valid
  blockSize_lt := by decide
  readable := by decide
  fits := by decide
  blocks_lt := by decide

/-- A block that is not backed is enough: the two-block file is rejected with the
checksum that was written with it. -/
theorem twoBlockFile_crc_rejected :
    twoBlockFile.Valid ∧ 4 ∣ twoBlockFile.blockSize.toNat ∧
      ∃ f, sparseFileWrite Env.blank twoBlockFile true true = .ok (0, f) ∧
        ¬ ∃ s', sparseFileImport f.content 3 true = .ok (some s') := by
  refine ⟨twoBlockFile_valid, by decide, _, twoBlockFile_encodable.sparseFileWrite_eq true, ?_⟩
  rw [twoBlockFile_encodable.import_crc_iff (by decide) (by decide) (by decide)]
  decide +kernel

end AndroidCore.Libsparse
