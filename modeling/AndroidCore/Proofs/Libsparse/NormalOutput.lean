import AndroidCore.Proofs.Libsparse.RoundTripBound

/-!
# `AndroidCore.Proofs.Libsparse.NormalOutput`: plain output and sparse output

The same traversal writes a plain image (`normal_file_ops`) or a sparse one
(`sparse_file_ops`). `normalStream` is what it writes in plain mode, and
`expandImage` is the meaning of what it writes in sparse mode
(`expandImage_sparseBytes`).

The two agree on every block but one kind. A sparse fill chunk stands for whole
blocks, while `write_normal_fill_chunk` writes the exact length and leaves the
file offset inside the block. So a fill that does not end on a block boundary is
cut short, and everything behind it moves. `normal_agrees_iff` says that this is
the only way to tell the two apart: the blocks of a file can hold whatever they
like without the outputs ever differing exactly when all its fills are whole.
-/

namespace AndroidCore.Libsparse

open Lib BackedBlock List Chunk UInt32

/-! ### The meaning of the sparse output -/

variable {bs : Nat}

/-- The expansion of one encoded chunk. -/
theorem expandChunks_succ {file : List UInt8} {c : Chunk} {pos : Nat} {rest : List UInt8}
    (hlt : c.blocks bs < 2 ^ 32) (hraw : ∀ bytes, c = .raw bytes → bs ∣ bytes.length)
    (hfile : file.drop pos = c.encode bs ++ rest) (n : Nat) :
    expandChunks bs file (n + 1) pos
      = (expandChunks bs file n (pos + (c.encode bs).length)).map (c.expand bs ++ ·) := by
  have hlen := congrArg length hfile
  rw [length_drop, length_append, length_encode] at hlen
  rw [encode, append_assoc] at hfile
  have hdata := drop_add_of_drop hfile
  rw [ChunkHeader.length_encode] at hdata
  have hhdr : ChunkHeader.decode ((file.drop pos).take chunkHeaderLen) = c.header bs := by
    rw [hfile, take_left' (ChunkHeader.length_encode _), ChunkHeader.decode_encode]
  have hsz : (c.header bs).chunkSz.toNat = c.blocks bs := by
    show (ofNat (c.blocks bs)).toNat = _
    rw [toNat_ofNat_of_lt' hlt]
  have hpos : 0 < chunkHeaderLen := by decide
  rw [expandChunks, length_encode, ← Nat.add_assoc]
  simp only [hhdr, hsz]
  rw [if_neg (by omega)]
  cases c with
  | raw bytes =>
    have hmul : (raw bytes).blocks bs * bs = bytes.length :=
      Nat.div_mul_cancel (hraw bytes rfl)
    have htype : ((raw bytes).header bs).chunkType = chunkTypeRaw := rfl
    simp only [payload] at hdata hlen ⊢
    rw [if_pos htype, hmul, if_neg (by omega), hdata, take_left' rfl]
    rfl
  | fill val k =>
    have htype : ((fill val k).header bs).chunkType = chunkTypeFill := rfl
    simp only [payload, length_le32] at hdata hlen ⊢
    rw [if_neg (by rw [htype]; decide), if_pos htype, if_neg (by omega), hdata, le32At_append]
    rfl
  | dontCare k =>
    rfl

/-- The expansion of encoded chunks. -/
theorem expandChunks_eq {file : List UInt8} (n : Nat) (cs : List Chunk) {pos : Nat}
    {rest : List UInt8} (hlt : ∀ c ∈ cs, c.blocks bs < 2 ^ 32)
    (hraw : ∀ bytes, raw bytes ∈ cs → bs ∣ bytes.length)
    (hfile : file.drop pos = cs.flatMap (encode bs) ++ rest) :
    expandChunks bs file (cs.length + n) pos
      = (expandChunks bs file n (pos + (cs.flatMap (encode bs)).length)).map
          (cs.flatMap (expand bs) ++ ·) := by
  induction cs generalizing pos with
  | nil =>
    simp
  | cons c cs ih =>
    rw [flatMap_cons, append_assoc] at hfile
    have hrest := ih (fun d hd => hlt d (mem_cons_of_mem _ hd))
      (fun b hb => hraw b (mem_cons_of_mem _ hb)) (drop_add_of_drop hfile)
    rw [show (c :: cs).length + n = (cs.length + n) + 1 by simp; omega,
      expandChunks_succ (hlt c mem_cons_self)
        (fun b hb => hraw b (hb ▸ mem_cons_self)) hfile, hrest, Option.map_map]
    simp only [flatMap_cons, length_append, Nat.add_assoc]
    congr 1
    funext x
    simp

variable {env : Env}

/-- A sparse image stands for the expansion of its chunks. -/
theorem SparseFile.Encodable.expandImage_sparseBytes {s : SparseFile} (h : s.Encodable env) :
    expandImage (sparseBytes env s false)
      = some ((s.chunks env).flatMap (expand s.blockSize.toNat)) := by
  have hlt : ∀ c ∈ s.chunks env, c.blocks s.blockSize.toNat < 2 ^ 32 :=
    fun c hc => Nat.lt_of_le_of_lt (h.chunks_le.2 c hc) h.blocks_lt
  have hcount : (s.chunks env).length < 2 ^ 32 := Nat.lt_of_le_of_lt h.chunks_le.1 h.blocks_lt
  have hhdr : SparseHeader.decode ((sparseBytes env s false).take sparseHeaderLen)
      = s.header env false := by
    unfold sparseBytes
    rw [append_assoc, take_left' (SparseHeader.length_encode _), SparseHeader.decode_encode]
  have hchunks : (s.header env false).totalChunks.toNat = (s.chunks env).length + 0 := by
    show (ofNat ((s.chunks env).length + 0)).toNat = _
    rw [toNat_ofNat', Nat.mod_eq_of_lt (by omega)]
  unfold expandImage
  simp only [hhdr]
  rw [hchunks, show (s.header env false).blkSz = s.blockSize from rfl,
    expandChunks_eq 0 (s.chunks env) hlt (fun _ hc => (h.chunks_raw hc).1)
      (drop_sparseBytes env s false)]
  simp [expandChunks]

/-! ### Appending to a plain file -/

namespace FileSink

/-- The file offset is not inside the content. -/
def AtEnd (f : FileSink) : Prop := f.content.length ≤ f.pos

/-- The bytes up to the file offset, with zeros where nothing was written yet. -/
def stream (f : FileSink) : List UInt8 := f.content ++ zeros (f.pos - f.content.length)

end FileSink

/-- A call on a plain output that returned 0, and moved the file on by the bytes
`d`. -/
structure Appended (out : OutputFile FileSink) (d : List UInt8)
    (r : Int × OutputFile FileSink) : Prop where
  ret_eq : r.1 = 0
  out_eq : r.2 = { out with sink := r.2.sink }
  atEnd : r.2.sink.AtEnd
  stream_eq : r.2.sink.stream = out.sink.stream ++ d

section
variable {out : OutputFile FileSink} (hend : out.sink.AtEnd)
include hend

theorem appended_write (d : List UInt8) : Appended out d (out.write fileOps d) := by
  have hlen : out.sink.content.length ≤ out.sink.pos := hend
  show Appended out d ((fileWrite out.sink d).1, { out with sink := (fileWrite out.sink d).2 })
  unfold fileWrite
  by_cases hd : d = []
  · rw [if_pos hd]
    exact ⟨rfl, rfl, hend, by rw [hd, append_nil]⟩
  · rw [if_neg hd]
    refine ⟨rfl, rfl, ?_, ?_⟩
    · simp only [FileSink.AtEnd, length_append, length_take, length_zeros, length_drop]
      omega
    · simp only [FileSink.stream]
      rw [take_of_length_le hlen, drop_eq_nil_of_le (by omega), append_nil]
      simp only [length_append, length_zeros]
      rw [show out.sink.pos + d.length - (out.sink.content.length +
        (out.sink.pos - out.sink.content.length) + d.length) = 0 by omega]
      exact append_nil _

theorem appended_skip (n : Nat) : Appended out (zeros n) (out.skip fileOps n) := by
  have hlen : out.sink.content.length ≤ out.sink.pos := hend
  show Appended out (zeros n)
    ((fileSkip out.sink n).1, { out with sink := (fileSkip out.sink n).2 })
  unfold fileSkip
  rw [if_neg (by omega)]
  refine ⟨rfl, rfl, ?_, ?_⟩
  · simp only [FileSink.AtEnd]
    omega
  · simp only [FileSink.stream]
    rw [append_assoc, zeros_append]
    congr 2
    omega

/-- `write_skip_chunk` in plain mode. -/
theorem appended_writeSkipChunk (hsp : out.sparseOps = false) (n : Nat) :
    Appended out (zeros n) (0, (writeSkipChunk fileOps out n).2) := by
  have hskip := appended_skip hend n
  unfold writeSkipChunk
  simp only [hsp]
  exact ⟨rfl, hskip.out_eq, hskip.atEnd, hskip.stream_eq⟩

theorem Appended.nil : Appended out [] (0, out) :=
  ⟨rfl, rfl, hend, (append_nil _).symm⟩

end

variable {r : Int × OutputFile FileSink} {d : List UInt8} {out : OutputFile FileSink}

section
variable (h : Appended out d r)
include h

theorem Appended.sparseOps_eq : r.2.sparseOps = out.sparseOps := by
  rw [h.out_eq]

theorem Appended.blockSize_eq : r.2.blockSize = out.blockSize := by
  rw [h.out_eq]

theorem Appended.len_eq : r.2.len = out.len := by
  rw [h.out_eq]

/-- Two calls in a row. -/
theorem Appended.trans {d' : List UInt8} {r' : Int × OutputFile FileSink}
    (h' : Appended r.2 d' r') :
    Appended out (d ++ d') r' where
  ret_eq := h'.ret_eq
  out_eq := by rw [h'.out_eq, h.out_eq]
  atEnd := h'.atEnd
  stream_eq := by rw [h'.stream_eq, h.stream_eq, append_assoc]

end

/-! ### What plain mode writes -/

/-- The bytes of a block in plain mode: a source is padded to whole blocks, a
fill is not. -/
def BackedBlock.normalBytes (env : Env) (bs : Nat) (bb : BackedBlock) : List UInt8 :=
  match bb.type with
  | .fill val => fillBytes val bb.len.toNat
  | _ => (bb.source env).getD [] ++ zeros (bb.numBlocks bs * bs - bb.len.toNat)

variable {bb : BackedBlock}

theorem normalBytes_of_fill {val : UInt32} (h : bb.type = .fill val) (bs : Nat) :
    bb.normalBytes env bs = fillBytes val bb.len.toNat := by
  unfold normalBytes
  rw [h]

theorem normalBytes_of_source {data : List UInt8} (h : bb.source env = some data) (bs : Nat) :
    bb.normalBytes env bs = data ++ zeros (bb.numBlocks bs * bs - bb.len.toNat) := by
  unfold normalBytes
  split
  · rename_i ht
    simp [source, ht] at h
  · rw [h, Option.getD_some]

/-- The bytes of a list of blocks in plain mode, behind block number `last`. -/
def normalStream (env : Env) (bs : Nat) : List BackedBlock → Nat → List UInt8
  | [], _ => []
  | bb :: rest, last =>
    zeros ((bb.block.toNat - last) * bs) ++
      (bb.normalBytes env bs ++ normalStream env bs rest (bb.endBlock bs))

theorem take_fillBytes (val : UInt32) {n k : Nat} (h : k ≤ n) :
    (fillBytes val n).take k = fillBytes val k := by
  unfold fillBytes
  rw [← map_take, take_range, Nat.min_eq_left h]

theorem fillBuf_eq {blockSize : UInt32} (h4 : 4 ∣ blockSize.toNat) (val : UInt32) :
    fillBuf blockSize val = fillBytes val blockSize.toNat := by
  unfold fillBuf
  rw [Nat.mul_div_cancel' h4, Nat.mod_eq_zero_of_dvd h4]
  exact append_nil _

/-- The write loop of a plain fill writes the fill, piece by piece. -/
theorem appended_normalFillLoop {val : UInt32} (hbs : 0 < bs) (h4 : 4 ∣ bs) (fuel : Nat)
    (len : Nat) {out : OutputFile FileSink} (hlen : len ≤ fuel) (hend : out.sink.AtEnd) :
    Appended out (fillBytes val len)
      (normalFillLoop fileOps (fillBytes val bs) out (piecesAux bs fuel len)) := by
  induction fuel generalizing len out with
  | zero =>
    obtain rfl : len = 0 := by omega
    exact .nil hend
  | succ fuel ih =>
    rw [piecesAux]
    split
    · rename_i hzero
      rw [hzero]
      exact .nil hend
    · rw [normalFillLoop, take_fillBytes val (Nat.min_le_right len bs)]
      have hfirst := appended_write hend (fillBytes val (min len bs))
      simp only
      rw [if_neg (by rw [hfirst.ret_eq]; decide)]
      have hrest := ih (len - min len bs) (by omega) hfirst.atEnd
      have hcut : fillBytes val (min len bs) ++ fillBytes val (len - min len bs)
          = fillBytes val len := by
        rcases Nat.le_total len bs with hle | hle
        · rw [Nat.min_eq_left hle, Nat.sub_self]
          exact append_nil _
        · rw [Nat.min_eq_right hle, fillBytes_append val h4, Nat.add_sub_cancel' hle]
      rw [← hcut]
      exact hfirst.trans hrest

section
variable {env : Env} {blockSize : UInt32} (hbs : 0 < blockSize.toNat)
  (h4 : 4 ∣ blockSize.toNat)
include hbs h4

/-- `sparse_file_write_block` in plain mode. -/
theorem appended_writeBlock (hsp : out.sparseOps = false) (hsize : out.blockSize = blockSize)
    (hend : out.sink.AtEnd) (hbb : bb.Encodable env blockSize) :
    Appended out (bb.normalBytes env blockSize.toNat)
      (sparseFileWriteBlock env fileOps out bb) := by
  rcases fill_or_source hbb.nonempty hbb.readable with ⟨val, hval⟩ | ⟨data, hdata⟩
  · have hrun : sparseFileWriteBlock env fileOps out bb
        = normalFillLoop fileOps (fillBytes val blockSize.toNat) out
            (pieces blockSize.toNat bb.len.toNat) := by
      unfold sparseFileWriteBlock writeFillChunk writeNormalFillChunk
      simp [hval, hsp, hsize, fillBuf_eq h4]
    rw [hrun, normalBytes_of_fill hval]
    exact appended_normalFillLoop hbs h4 _ _ (Nat.le_refl _) hend
  · have halign := toNat_align_of_fits hbs hbb.fits
    have hzero := toNat_zeroLen_of_fits hbs hbb.fits
    have hwrite := appended_write hend data
    rw [normalBytes_of_source hdata, sparseFileWriteBlock_of_source hdata]
    unfold writeDataChunk writeNormalDataChunk
    simp only [hsp, Bool.false_eq_true, if_false, hsize]
    rw [if_neg (by rw [hwrite.ret_eq]; decide)]
    -- The offset moves behind the padding, unless there is none.
    by_cases hlt : bb.len < align bb.len blockSize
    · rw [if_pos hlt, hzero]
      exact hwrite.trans (appended_skip hwrite.atEnd _)
    · rw [if_neg hlt]
      have hnone : bb.numBlocks blockSize.toNat * blockSize.toNat - bb.len.toNat = 0 := by
        rw [lt_iff_toNat_lt] at hlt
        omega
      rw [hnone, show zeros 0 = [] from rfl, append_nil]
      exact ⟨hwrite.ret_eq, hwrite.out_eq, hwrite.atEnd, hwrite.stream_eq⟩

/-- The loop of `write_all_blocks` in plain mode. -/
theorem writeBlocksLoop_normal (blocks : List BackedBlock) (out : OutputFile FileSink)
    (lastBlock : UInt32) (hsp : out.sparseOps = false) (hsize : out.blockSize = blockSize)
    (hend : out.sink.AtEnd) (hblocks : ∀ bb ∈ blocks, bb.Encodable env blockSize) :
    ∃ out', writeBlocksLoop env fileOps blockSize blocks lastBlock out
        = (0, streamEnd blockSize blocks lastBlock, out') ∧
      Appended out (normalStream env blockSize.toNat blocks lastBlock.toNat) (0, out') := by
  induction blocks generalizing out lastBlock with
  | nil =>
    exact ⟨out, rfl, .nil hend⟩
  | cons bb rest ih =>
    obtain ⟨hbb, hblocks⟩ := forall_mem_cons.mp hblocks
    -- The gap in front of the block.
    obtain ⟨out₁, hout₁, hgap⟩ : ∃ out₁, (if lastBlock < bb.block then
          (writeSkipChunk fileOps out ((bb.block - lastBlock).toNat * blockSize.toNat)).2
        else out) = out₁ ∧
        Appended out (zeros ((bb.block.toNat - lastBlock.toNat) * blockSize.toNat))
          (0, out₁) := by
      refine ⟨_, rfl, ?_⟩
      by_cases h : lastBlock < bb.block
      · have hsub : (bb.block - lastBlock).toNat = bb.block.toNat - lastBlock.toNat :=
          UInt32.toNat_sub_of_le _ _ (UInt32.le_of_lt h)
        rw [if_pos h, hsub]
        exact_mod_cast appended_writeSkipChunk hend hsp _
      · rw [if_neg h]
        have hle : bb.block.toNat - lastBlock.toNat = 0 := by
          rw [lt_iff_toNat_lt] at h
          omega
        rw [hle, Nat.zero_mul]
        exact .nil hend
    have hsp₁ : out₁.sparseOps = false := hgap.sparseOps_eq.trans hsp
    have hsize₁ : out₁.blockSize = blockSize := hgap.blockSize_eq.trans hsize
    have hblock := appended_writeBlock hbs h4 hsp₁ hsize₁ hgap.atEnd hbb
    obtain ⟨out', hrun, hrest⟩ := ih _ (blockEnd blockSize bb) (hblock.sparseOps_eq.trans hsp₁)
      (hblock.blockSize_eq.trans hsize₁) hblock.atEnd hblocks
    rw [toNat_blockEnd_of_fits hbs hbb.fits hbb.end_lt] at hrest
    refine ⟨out', ?_, ?_⟩
    · rw [writeBlocksLoop]
      simp only [hout₁]
      rw [if_neg (not_not.mpr hblock.ret_eq), hrun, streamEnd]
    · exact hgap.trans (hblock.trans hrest)

end

/-- A block takes no more bytes in plain mode than the blocks it touches. -/
theorem length_normalBytes_le {blockSize : UInt32} (hbs : 0 < blockSize.toNat)
    (hbb : bb.Encodable env blockSize) :
    (bb.normalBytes env blockSize.toNat).length ≤
      bb.numBlocks blockSize.toNat * blockSize.toNat := by
  have hround := (len_le_numBlocks_mul hbs bb).1
  rcases fill_or_source hbb.nonempty hbb.readable with ⟨val, hval⟩ | ⟨data, hdata⟩
  · rw [normalBytes_of_fill hval, length_fillBytes]
    exact hround
  · rw [normalBytes_of_source hdata, length_append, length_zeros, length_source hdata]
    omega

theorem length_normalStream_le {blockSize : UInt32} (hbs : 0 < blockSize.toNat)
    (blocks : List BackedBlock) {last : Nat} (hbehind : Behind blockSize.toNat last blocks)
    (hblocks : ∀ bb ∈ blocks, bb.Encodable env blockSize) :
    last * blockSize.toNat + (normalStream env blockSize.toNat blocks last).length
      ≤ endOf blockSize.toNat blocks last * blockSize.toNat := by
  induction blocks generalizing last with
  | nil => exact Nat.le_refl _
  | cons bb rest ih =>
    obtain ⟨hbb, hblocks⟩ := forall_mem_cons.mp hblocks
    have hle := Nat.mul_le_mul_right blockSize.toNat (hbehind.le bb mem_cons_self)
    have hblock := length_normalBytes_le hbs hbb
    have hrest := ih (hbehind.tail hbs) hblocks
    rw [normalStream, endOf, length_append, length_append, length_zeros, Nat.sub_mul]
    rw [show bb.endBlock blockSize.toNat * blockSize.toNat = _ + _ from Nat.add_mul _ _ _] at hrest
    omega

section
variable {env : Env} {s : SparseFile}

/-- The plain image of a sparse file: what plain mode writes, and zeros up to the
length. -/
def SparseFile.normalImage (env : Env) (s : SparseFile) : List UInt8 :=
  normalStream env s.blockSize.toNat s.blocks 0 ++
    zeros (s.len.toNat - (normalStream env s.blockSize.toNat s.blocks 0).length)

/-- Closing a plain output pads the file to its length. -/
theorem normal_close_eq {n : Nat} (hsp : out.sparseOps = false) (hlen : out.len = n)
    (hn : out.sink.stream.length ≤ n) :
    (outputFileClose fileOps out).sink.content
      = out.sink.stream ++ zeros (n - out.sink.stream.length) := by
  simp only [FileSink.stream, length_append, length_zeros] at hn ⊢
  unfold outputFileClose
  simp only [hsp]
  show (filePad out.sink out.len).2.content = _
  unfold filePad
  rw [hlen, if_neg (by omega)]
  simp only [Int.toNat_natCast]
  rw [take_of_length_le (by omega), append_assoc, zeros_append]
  congr 2
  omega

/-- `sparse_file_write` in plain mode. -/
theorem SparseFile.Encodable.sparseFileWrite_normal (h : s.Encodable env)
    (h4 : 4 ∣ s.blockSize.toNat) (crc : Bool) :
    ∃ f, sparseFileWrite env s false crc = .ok (0, f) ∧ f.content = s.normalImage env := by
  have hpos := h.blockSize_pos
  have hempty : (FileSink.mk [] 0).AtEnd := Nat.le_refl 0
  obtain ⟨out, hrun, hout⟩ := writeBlocksLoop_normal hpos h4 s.blocks
    { chunkCnt := 0, crc32 := 0, useCrc := crc, blockSize := s.blockSize, len := s.len,
      sparseOps := false, sink := { content := [], pos := 0 } }
    0 rfl rfl hempty h.block
  have hstream : out.sink.stream = normalStream env s.blockSize.toNat s.blocks 0 := hout.stream_eq
  have hbound := length_normalStream_le hpos s.blocks h.behind h.block
  have hendle := Nat.mul_le_mul_right s.blockSize.toNat h.endOf_le
  have htail := h.tailLen_eq
  have hlen := h.len_eq_cast
  -- The rest of the image behind the last block is skipped.
  have hall : ∃ out', writeAllBlocks env fileOps s
        { chunkCnt := 0, crc32 := 0, useCrc := crc, blockSize := s.blockSize, len := s.len,
          sparseOps := false, sink := { content := [], pos := 0 } } = .ok (0, out') ∧
      ∃ k, Appended out (zeros k) (0, out') ∧
        (normalStream env s.blockSize.toNat s.blocks 0).length + k
          ≤ s.totalBlocks * s.blockSize.toNat := by
    unfold writeAllBlocks
    rw [hrun]
    simp only [ne_eq, not_true_eq_false, if_false]
    rw [show s.len - (streamEnd s.blockSize s.blocks 0).toNat * s.blockSize.toNat = s.tailLen
      from rfl, htail]
    rw [if_neg (Int.not_lt.mpr (Int.mul_nonneg (by omega) (by omega)))]
    split
    · refine ⟨_, rfl, (s.totalBlocks - endOf s.blockSize.toNat s.blocks 0) * s.blockSize.toNat,
        ?_, ?_⟩
      · exact_mod_cast appended_writeSkipChunk hout.atEnd hout.sparseOps_eq _
      · rw [Nat.sub_mul]
        omega
    · exact ⟨out, rfl, 0, .nil hout.atEnd, by omega⟩
  obtain ⟨out', hwrite, k, hskip, hk⟩ := hall
  have hstream' : out'.sink.stream
      = normalStream env s.blockSize.toNat s.blocks 0 ++ zeros k := by
    rw [← hstream]
    exact hskip.stream_eq
  have hsp' : out'.sparseOps = false := hskip.sparseOps_eq.trans hout.sparseOps_eq
  have hlen' : out'.len = s.len := hskip.len_eq.trans hout.len_eq
  refine ⟨(outputFileClose fileOps out').sink, ?_, ?_⟩
  · have hsize := h.blockSize_lt
    unfold sparseFileWrite writeSparseFile outputFileInit
    rw [if_neg (by omega)]
    simp only [Bool.false_eq_true, if_false, hwrite]
    rfl
  · rw [normal_close_eq hsp' (hlen'.trans hlen)
      (by rw [hstream', length_append, length_zeros]; exact hk), hstream']
    rw [length_append, length_zeros, append_assoc, zeros_append]
    congr 2
    omega

end

/-! ### Whole fills -/

/-- A block whose fill, if it is one, ends on a block boundary. -/
def WholeFill (bs : Nat) (bb : BackedBlock) : Prop :=
  (∃ val, bb.type = .fill val) → bs ∣ bb.len.toNat

/-- A length that is a number of blocks is rounded up to itself. -/
theorem numBlocks_mul_eq_iff (hbs : 0 < bs) (bb : BackedBlock) :
    bb.numBlocks bs * bs = bb.len.toNat ↔ bs ∣ bb.len.toNat := by
  constructor
  · intro h
    rw [← h]
    exact Nat.dvd_mul_left _ _
  · rintro ⟨k, hk⟩
    unfold numBlocks
    rw [hk, Nat.add_sub_assoc hbs, Nat.mul_add_div hbs, Nat.div_eq_of_lt (by omega),
      Nat.add_zero, Nat.mul_comm]

theorem expand_gapChunks {last next : Nat} :
    (gapChunks last next).flatMap (expand bs) = zeros ((next - last) * bs) := by
  unfold gapChunks
  split
  · simp [expand]
  · rw [Nat.sub_eq_zero_of_le (by omega), Nat.zero_mul]
    rfl

section
variable {env : Env} {blockSize : UInt32} (hbs : 0 < blockSize.toNat)
include hbs

theorem normalBytes_eq_expand (hbb : bb.Encodable env blockSize)
    (hwhole : WholeFill blockSize.toNat bb) :
    bb.normalBytes env blockSize.toNat
      = (bb.chunk env blockSize.toNat).expand blockSize.toNat := by
  rcases fill_or_source hbb.nonempty hbb.readable with ⟨val, hval⟩ | ⟨data, hdata⟩
  · rw [normalBytes_of_fill hval, chunk_of_fill hval, expand,
      (numBlocks_mul_eq_iff hbs bb).mpr (hwhole ⟨val, hval⟩)]
  · rw [normalBytes_of_source hdata, chunk_of_source hdata]
    rfl

theorem normalStream_eq_expand (blocks : List BackedBlock) (last : Nat)
    (hblocks : ∀ bb ∈ blocks, bb.Encodable env blockSize)
    (hwhole : ∀ bb ∈ blocks, WholeFill blockSize.toNat bb) :
    normalStream env blockSize.toNat blocks last
      = (chunksOf env blockSize.toNat blocks last).flatMap (expand blockSize.toNat) := by
  induction blocks generalizing last with
  | nil => rfl
  | cons bb rest ih =>
    obtain ⟨hbb, hblocks⟩ := forall_mem_cons.mp hblocks
    obtain ⟨hfill, hwhole⟩ := forall_mem_cons.mp hwhole
    rw [normalStream, chunksOf, flatMap_append, flatMap_cons, expand_gapChunks,
      normalBytes_eq_expand hbs hbb hfill, ih _ hblocks hwhole]

end

/-- A chunk expands to the blocks it covers. -/
theorem length_expand {cs : List Chunk} (hraw : ∀ bytes, raw bytes ∈ cs → bs ∣ bytes.length) :
    (cs.flatMap (expand bs)).length = totalOf bs cs * bs := by
  induction cs with
  | nil => exact (Nat.zero_mul bs).symm
  | cons c cs ih =>
    have hc : (c.expand bs).length = c.blocks bs * bs := by
      cases c with
      | raw bytes => exact (Nat.div_mul_cancel (hraw bytes mem_cons_self)).symm
      | fill val n => exact length_fillBytes val _
      | dontCare n => exact length_zeros _
    rw [flatMap_cons, length_append, hc, ih fun b hb => hraw b (mem_cons_of_mem _ hb)]
    exact (Nat.add_mul _ _ _).symm

section
variable {env : Env} {s : SparseFile}

/-- With whole fills the plain image is the expansion of the chunks. -/
theorem SparseFile.Encodable.normalImage_eq_expand (h : s.Encodable env)
    (hwhole : ∀ bb ∈ s.blocks, WholeFill s.blockSize.toNat bb) :
    s.normalImage env = (s.chunks env).flatMap (expand s.blockSize.toNat) := by
  have hstream := normalStream_eq_expand h.blockSize_pos s.blocks 0 h.block hwhole
  have hlen : ((chunksOf env s.blockSize.toNat s.blocks 0).flatMap
      (expand s.blockSize.toNat)).length
        = endOf s.blockSize.toNat s.blocks 0 * s.blockSize.toNat := by
    rw [length_expand fun _ hc => (h.chunks_raw (mem_append_left _ hc)).1,
      ← totalOf_chunksOf h.blockSize_pos s.blocks h.behind h.block, Nat.zero_add]
  unfold SparseFile.normalImage SparseFile.chunks
  rw [hstream, hlen, h.len_eq_cast, Int.toNat_natCast, flatMap_append, expand_gapChunks,
    Nat.sub_mul]

/-- Both outputs are written, and the plain one is what the sparse one stands
for. -/
def Agrees (env : Env) (s : SparseFile) : Prop :=
  ∃ f g, sparseFileWrite env s false false = .ok (0, f) ∧
    sparseFileWrite env s true false = .ok (0, g) ∧ expandImage g.content = some f.content

/-- The two outputs agree exactly when the plain image is the expansion of the
chunks. -/
theorem SparseFile.Encodable.agrees_iff (h : s.Encodable env) (h4 : 4 ∣ s.blockSize.toNat) :
    Agrees env s ↔
      s.normalImage env = (s.chunks env).flatMap (expand s.blockSize.toNat) := by
  obtain ⟨f, hnormal, hcontent⟩ := h.sparseFileWrite_normal h4 false
  have hsparse := h.sparseFileWrite_eq false
  have hexpand := h.expandImage_sparseBytes
  constructor
  · rintro ⟨f', g, hf, hg, hagree⟩
    rw [hnormal] at hf
    rw [hsparse] at hg
    obtain rfl := (Prod.mk.inj (Except.ok.inj hf)).2
    obtain rfl := (Prod.mk.inj (Except.ok.inj hg)).2
    rw [← hcontent]
    exact (Option.some.inj (hexpand.symm.trans hagree)).symm
  · intro heq
    exact ⟨f, _, hnormal, hsparse, by rw [hexpand, hcontent, heq]⟩

end

/-! ### A fill that is not whole -/

/-- Two files with the same blocks, up to what the blocks hold. -/
structure SameLayout (s s' : SparseFile) : Prop where
  blockSize_eq : s'.blockSize = s.blockSize
  len_eq : s'.len = s.len
  blocks : List.Forall₂ (fun a b : BackedBlock => b.block = a.block ∧ b.len = a.len ∧
    ((∃ val, b.type = .fill val) ↔ ∃ val, a.type = .fill val)) s.blocks s'.blocks

/-- The block with every byte 1. -/
def BackedBlock.ones (bb : BackedBlock) : BackedBlock where
  block := bb.block
  len := bb.len
  type :=
    match bb.type with
    | .fill _ => .fill 0x01010101
    | _ => .data 0

/-- The file with every byte of every block 1. -/
def SparseFile.ones (s : SparseFile) : SparseFile where
  len := s.len
  backedBlockList := { s.backedBlockList with dataBlocks := s.blocks.map BackedBlock.ones }

/-- Memory full of ones. -/
def Env.ones : Env where
  mem _ := 1
  file _ := none
  fd _ := none

theorem ones_type (bb : BackedBlock) :
    (∃ val, bb.type = .fill val) ∧ bb.ones.type = .fill 0x01010101 ∨
      ¬ (∃ val, bb.type = .fill val) ∧ bb.ones.type = .data 0 := by
  unfold BackedBlock.ones
  cases bb.type <;> simp

theorem sameLayout_ones (s : SparseFile) : SameLayout s s.ones where
  blockSize_eq := rfl
  len_eq := rfl
  blocks := by
    show List.Forall₂ _ s.blocks (s.blocks.map BackedBlock.ones)
    rw [forall₂_map_right_iff, forall₂_same]
    intro bb _
    refine ⟨rfl, rfl, ?_⟩
    rcases ones_type bb with ⟨hfill, htype⟩ | ⟨hfill, htype⟩
    · exact iff_of_true ⟨_, htype⟩ hfill
    · exact iff_of_false (by rw [htype]; simp) hfill

theorem ones_encodable {s : SparseFile} (h : s.Encodable env) : s.ones.Encodable Env.ones where
  blockSize_pos := h.blockSize_pos
  nonempty := forall_mem_map.mpr h.nonempty
  ordered := pairwise_map.mpr h.ordered
  len_eq := h.len_eq
  inside := forall_mem_map.mpr h.inside
  blockSize_lt := h.blockSize_lt
  readable := forall_mem_map.mpr fun bb _ => by
    rcases ones_type bb with ⟨_, htype⟩ | ⟨_, htype⟩ <;> rw [htype] <;> simp [Env.cell]
  fits := forall_mem_map.mpr h.fits
  blocks_lt := h.blocks_lt

theorem fillBytes_ones (n : Nat) : fillBytes 0x01010101 n = List.replicate n 1 := by
  unfold fillBytes
  rw [map_eq_replicate_iff.mpr, length_range]
  intro i _
  have hword : ∀ k < 4, (le32 0x01010101).getD k 0 = 1 := by decide
  exact hword (i % 4) (Nat.mod_lt _ (by decide))

theorem count_zeros (n : Nat) : (zeros n).count 1 = 0 := by
  unfold zeros
  rw [count_replicate]
  rfl

/-- The bytes of a block of ones in the sparse image. -/
def expandedOnes (bs : Nat) (bb : BackedBlock) : Nat :=
  match bb.type with
  | .fill _ => bb.numBlocks bs * bs
  | _ => bb.len.toNat

theorem source_ones (htype : bb.ones.type = .data 0) :
    bb.ones.source Env.ones = some (List.replicate bb.len.toNat 1) := by
  unfold source
  simp only [htype, Env.readMem, Env.ones, map_const', length_range]
  rfl

/-- The ones of a block, in the plain image and in the sparse one. -/
theorem count_ones (bs : Nat) (bb : BackedBlock) :
    (bb.ones.normalBytes Env.ones bs).count 1 = bb.len.toNat ∧
      ((bb.ones.chunk Env.ones bs).expand bs).count 1 = expandedOnes bs bb := by
  unfold expandedOnes
  rcases ones_type bb with ⟨⟨val, hval⟩, htype⟩ | ⟨hnot, htype⟩
  · rw [normalBytes_of_fill htype, chunk_of_fill htype]
    simp only [hval, expand, fillBytes_ones, count_replicate_self]
    exact ⟨rfl, rfl⟩
  · rw [normalBytes_of_source (source_ones htype), chunk_of_source (source_ones htype)]
    simp only [expand, count_append, count_replicate_self, count_zeros, Nat.add_zero, true_and]
    split
    · exact absurd ⟨_, ‹_›⟩ hnot
    · rfl

theorem count_stream_ones (bs : Nat) (blocks : List BackedBlock) (last : Nat) :
    (normalStream Env.ones bs (blocks.map BackedBlock.ones) last).count 1
      = (blocks.map fun bb => bb.len.toNat).sum ∧
    ((chunksOf Env.ones bs (blocks.map BackedBlock.ones) last).flatMap (expand bs)).count 1
      = (blocks.map (expandedOnes bs)).sum := by
  induction blocks generalizing last with
  | nil => exact ⟨rfl, rfl⟩
  | cons bb rest ih =>
    simp only [map_cons, normalStream, chunksOf, flatMap_append, flatMap_cons, expand_gapChunks,
      count_append, count_zeros, ih, count_ones, Nat.zero_add]
    exact ⟨rfl, rfl⟩

/-- If the outputs agree on the file of ones, all fills are whole: a fill that is
not whole has more ones in the sparse image than in the plain one. -/
theorem wholeFill_of_agrees_ones {s : SparseFile} (h : s.Encodable env) (h4 : 4 ∣ s.blockSize.toNat)
    (hagree : Agrees Env.ones s.ones) : ∀ bb ∈ s.blocks, WholeFill s.blockSize.toNat bb := by
  intro bb hbb ⟨val, hval⟩
  have heq := ((ones_encodable h).agrees_iff h4).mp hagree
  have hcount := congrArg (count 1) heq
  unfold SparseFile.normalImage SparseFile.chunks at hcount
  rw [count_append, count_zeros, flatMap_append, expand_gapChunks, count_append,
    show s.ones.blocks = s.blocks.map BackedBlock.ones from rfl,
    show s.ones.blockSize = s.blockSize from rfl, (count_stream_ones _ _ _).1,
    (count_stream_ones _ _ _).2] at hcount
  have hround : ∀ b : BackedBlock, b.len.toNat ≤ b.numBlocks s.blockSize.toNat *
      s.blockSize.toNat := fun b => (numBlocks_le_iff h.blockSize_pos b _).mp (Nat.le_refl _)
  by_contra hnot
  have hlt : (s.blocks.map fun bb => bb.len.toNat).sum
      < (s.blocks.map (expandedOnes s.blockSize.toNat)).sum := by
    refine sum_lt_sum _ _ (fun b _ => ?_) ⟨bb, hbb, ?_⟩
    · unfold expandedOnes
      split
      · exact hround b
      · exact Nat.le_refl _
    · unfold expandedOnes
      simp only [hval]
      refine Nat.lt_of_le_of_ne (hround bb) fun heq => hnot ?_
      exact (numBlocks_mul_eq_iff h.blockSize_pos bb).mp heq.symm
  omega

/-! ### Main result -/

/-- Sparse and plain output describe the same image. Take a sparse file the
writer can encode, with a block size that is a multiple of 4. For it and every
other file with the same layout, whatever the blocks hold, the plain output is
the expansion of the sparse output, exactly when every fill of the layout ends on
a block boundary. -/
theorem normal_agrees_iff (env : Env) (s : SparseFile) (hs : s.Encodable env)
    (h4 : 4 ∣ s.blockSize.toNat) :
    (∀ env' s', SameLayout s s' → s'.Encodable env' → Agrees env' s') ↔
      ∀ bb ∈ s.blocks, (∃ val, bb.type = .fill val) → s.blockSize.toNat ∣ bb.len.toNat := by
  constructor
  · intro hagree
    exact wholeFill_of_agrees_ones hs h4
      (hagree Env.ones s.ones (sameLayout_ones s) (ones_encodable hs))
  · intro hwhole env' s' hlayout hs'
    rw [hs'.agrees_iff (by rw [hlayout.blockSize_eq]; exact h4)]
    refine hs'.normalImage_eq_expand fun b hb hfill => ?_
    obtain ⟨bb, hbb, _, hlen, htype⟩ := exists_of_forall₂ hlayout.blocks hb
    rw [hlayout.blockSize_eq, hlen]
    exact hwhole bb hbb (htype.mp hfill)

/-- The two-block file has one whole fill, so its outputs agree. -/
theorem normal_agrees_twoBlockFile : Agrees Env.blank twoBlockFile := by
  have hs : twoBlockFile.Encodable Env.blank :=
    { toValid := twoBlockFile_valid, blockSize_lt := by decide, readable := by decide
      fits := by decide, blocks_lt := by decide }
  have hlayout : SameLayout twoBlockFile twoBlockFile :=
    ⟨rfl, rfl, forall₂_same.mpr fun _ _ => ⟨rfl, rfl, Iff.rfl⟩⟩
  refine (normal_agrees_iff Env.blank twoBlockFile hs (by decide)).mpr ?_ Env.blank twoBlockFile
    hlayout hs
  intro bb hbb _
  obtain rfl := mem_singleton.mp hbb
  decide

/-- Two blocks of 4 bytes: a fill of 2 bytes, and a fill of 4. -/
def cutFillFile : SparseFile where
  len := 8
  backedBlockList :=
    { dataBlocks :=
        [{ block := 0, len := 2, type := .fill 0x2a2a2a2a },
          { block := 1, len := 4, type := .fill 0x07070707 }]
      lastUsed := none, blockSize := 4 }

/-- The fill of 2 bytes ends early in the plain output, and the next block
follows right behind it. -/
theorem cutFillFile_outputs_differ :
    cutFillFile.Valid ∧
      ∃ f g, sparseFileWrite Env.blank cutFillFile false false = .ok (0, f) ∧
        sparseFileWrite Env.blank cutFillFile true false = .ok (0, g) ∧
        f.content = [0x2a, 0x2a, 7, 7, 7, 7, 0, 0] ∧
        expandImage g.content = some [0x2a, 0x2a, 0x2a, 0x2a, 7, 7, 7, 7] := by
  have hvalid : cutFillFile.Valid :=
    { blockSize_pos := by decide, nonempty := by decide, ordered := by decide
      len_eq := ⟨2, rfl⟩, inside := by decide }
  exact ⟨hvalid, _, _, rfl, rfl, by decide, by decide +kernel⟩

end AndroidCore.Libsparse
