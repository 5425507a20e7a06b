import AndroidCore.Proofs.Libsparse.Format
import AndroidCore.Proofs.Libsparse.Queue
import AndroidCore.Proofs.Libsparse.Rounding

/-!
# `AndroidCore.Proofs.Libsparse.Reader`: reading encoded chunks back

What `sparse_file_read_sparse` does on bytes that are encoded chunks. One
iteration of its loop reads one chunk (`readChunk_eq`): it queues the block the
chunk stands for, moves `cur_block` and the file offset behind the chunk, and
feeds the bytes the chunk expands to into the checksum. `readChunksLoop_eq` is
the whole loop, by induction over the chunks.

The blocks are queued behind all earlier ones, so the list that results is a
fold of `pushBlock` over `importBlocks`, the blocks of the chunks.
-/

namespace AndroidCore.Libsparse

open Lib List Chunk UInt32

/-! ### Reading bytes -/

variable {rest file : List UInt8} {pos : Nat}

/-- `read_all` of the bytes the file has next. -/
theorem readAll_eq {a : List UInt8} (h : file.drop pos = a ++ rest) :
    readAll file pos a.length = .ok (a, pos + a.length) := by
  unfold readAll
  have hlen := congrArg length h
  rw [length_drop, length_append] at hlen
  rw [if_pos (by omega), h, take_left']
  rfl

theorem drop_add_of_drop {a : List UInt8} (h : file.drop pos = a ++ rest) :
    file.drop (pos + a.length) = rest := by
  rw [← drop_drop, h, drop_left']
  rfl

/-- The checksum loop of `process_raw_chunk` sums the bytes it reads. -/
theorem rawCrcLoop_eq (ns : List Nat) {pos : Nat} (crc : UInt32) {bytes rest : List UInt8}
    (hfile : file.drop pos = bytes ++ rest) (hlen : bytes.length = ns.sum) :
    rawCrcLoop file ns pos crc = .ok (sparseCrc32 crc bytes, pos + bytes.length) := by
  induction ns generalizing pos crc bytes with
  | nil =>
    have hnil : bytes = [] := length_eq_zero_iff.mp hlen
    rw [hnil, sparseCrc32_nil]
    rfl
  | cons n ns ih =>
    rw [sum_cons] at hlen
    -- The piece of `n` bytes, and what is left for the other pieces.
    have hsplit : file.drop pos = bytes.take n ++ (bytes.drop n ++ rest) := by
      rw [hfile, ← append_assoc, take_append_drop]
    have htake : (bytes.take n).length = n := by
      rw [length_take]
      omega
    have hread := readAll_eq hsplit
    have hrest := ih (sparseCrc32 crc (bytes.take n)) (drop_add_of_drop hsplit)
      (by rw [length_drop]; omega)
    rw [htake] at hread hrest
    rw [rawCrcLoop, hread]
    show rawCrcLoop file ns (pos + n) _ = _
    rw [hrest, ← sparseCrc32_append, take_append_drop, length_drop]
    congr 2
    omega

/-! ### Chunks -/

/-- A chunk that the reader takes for what it is: it covers fewer than `2 ^ 31`
blocks, and raw bytes fill whole blocks and fit 32 bits. -/
structure Chunk.Ok (blockSize : Nat) (c : Chunk) : Prop where
  blocks_lt : c.blocks blockSize < 2 ^ 31
  raw_ok : ∀ bytes, c = .raw bytes → blockSize ∣ bytes.length ∧ bytes.length < 2 ^ 32

/-- The block that reading a chunk queues: a chunk at block number `cur`, whose
bytes in the file start at `pos`. -/
def Chunk.importBlock (fd : Int) (blockSize cur pos : Nat) : Chunk → Option BackedBlock
  | .raw bytes => some
      { block := UInt32.ofNat cur, len := UInt32.ofNat bytes.length
        type := .fd fd ((pos + chunkHeaderLen : Nat) : Int) }
  | .fill val n => some
      { block := UInt32.ofNat cur, len := UInt32.ofNat (n * blockSize), type := .fill val }
  | .dontCare _ => none

/-- The blocks that reading a list of chunks queues, one after the other. -/
def importBlocks (fd : Int) (blockSize : Nat) : List Chunk → Nat → Nat → List BackedBlock
  | [], _, _ => []
  | c :: cs, cur, pos =>
    (c.importBlock fd blockSize cur pos).toList ++
      importBlocks fd blockSize cs (cur + c.blocks blockSize)
        (pos + (c.encode blockSize).length)

/-- A block queued by the reader sits at the chunk's block number. -/
theorem Chunk.block_importBlock {fd : Int} {bs cur : Nat} {c : Chunk} {new : BackedBlock}
    (h : c.importBlock fd bs cur pos = some new) : new.block = UInt32.ofNat cur := by
  cases c with
  | raw bytes | fill val n =>
    rw [← Option.some.inj h]
  | dontCare n => exact absurd h (by simp [importBlock])

@[simp] theorem Chunk.length_encode (bs : Nat) (c : Chunk) :
    (c.encode bs).length = chunkHeaderLen + c.payload.length := by
  unfold encode
  rw [length_append, ChunkHeader.length_encode]

/-- The file with some blocks queued behind the others. -/
structure Pushed (s s' : SparseFile) (new : List BackedBlock) : Prop where
  len : s'.len = s.len
  blockSize : s'.blockSize = s.blockSize
  blocks : s'.blocks = new.foldl (pushBlock s.blockSize) s.blocks

/-- `sparse_file_add_*` of a block behind all others. -/
theorem queueBb_sparseFile {s : SparseFile} (hbs : 0 < s.blockSize.toNat) {new : BackedBlock}
    (hlt : ∀ b ∈ s.blocks, b.block < new.block) :
    ∃ list, queueBb s.backedBlockList new = .ok list ∧
      Pushed s { s with backedBlockList := list } [new] := by
  obtain ⟨lastUsed, h⟩ := queueBb_eq_pushBlock hbs hlt
  exact ⟨_, h, rfl, rfl, rfl⟩

section
variable {file : List UInt8} {fd : Int} {s : SparseFile} {cur pos : Nat}

/-- `process_raw_chunk` on the bytes of a raw chunk. -/
theorem processRawChunk_eq (fd : Int) (hbs : 0 < s.blockSize.toNat) {bytes : List UInt8}
    (hfile : file.drop pos = bytes ++ rest) (hdvd : s.blockSize.toNat ∣ bytes.length)
    (hsize : bytes.length < 2 ^ 32) {block : UInt32} (hlt : ∀ b ∈ s.blocks, b.block < block)
    (crc : Option UInt32) :
    ∃ s' : SparseFile,
      processRawChunk file fd s (UInt32.ofNat bytes.length)
          (UInt32.ofNat (bytes.length / s.blockSize.toNat)) block pos crc
        = .ok (s', crc.map (sparseCrc32 · bytes), pos + bytes.length) ∧
      Pushed s s' [{ block, len := UInt32.ofNat bytes.length, type := .fd fd pos }] := by
  obtain ⟨n, hn⟩ := hdvd
  have hbytes : (ofNat bytes.length).toNat = bytes.length :=
    toNat_ofNat_of_lt' hsize
  have hdiv : bytes.length / s.blockSize.toNat = n := by
    rw [hn, Nat.mul_div_cancel_left _ hbs]
  have hnle : n ≤ bytes.length := by
    rw [hn]
    exact Nat.le_mul_of_pos_left n hbs
  have hblocks : (ofNat n).toNat = n := by
    rw [toNat_ofNat', Nat.mod_eq_of_lt (by omega)]
  have hlen : ofNat n * s.blockSize = ofNat bytes.length := by
    apply UInt32.toNat_inj.mp
    rw [UInt32.toNat_mul, hblocks, hbytes, Nat.mul_comm, ← hn, Nat.mod_eq_of_lt hsize]
  have hne : s.blockSize ≠ 0 := by
    intro h
    rw [h] at hbs
    cases hbs
  have hmod : ofNat bytes.length % s.blockSize = 0 := by
    apply UInt32.toNat_inj.mp
    rw [UInt32.toNat_mod, hbytes, hn, Nat.mul_mod_right]
    rfl
  have hquot : ofNat bytes.length / s.blockSize = ofNat n := by
    apply UInt32.toNat_inj.mp
    rw [UInt32.toNat_div, hbytes, hdiv, hblocks]
  obtain ⟨list, hqueue, hpushed⟩ :=
    @queueBb_sparseFile s hbs ⟨block, ofNat bytes.length, .fd fd pos⟩ hlt
  refine ⟨_, ?_, hpushed⟩
  unfold processRawChunk
  simp only [hdiv, hlen, hmod, hquot, ne_eq, hne, hbytes, sparseFileAddFd, backedBlockAddFd, hqueue]
  cases crc with
  | none => rfl
  | some crc =>
    have hcrc := rawCrcLoop_eq (pieces copyBufSize bytes.length) crc hfile
      (sum_pieces (by decide) _).symm
    show (rawCrcLoop file (pieces copyBufSize bytes.length) pos crc >>= _) = _
    rw [hcrc]
    rfl

variable {n : Nat}

/-- `process_fill_chunk` on the word of a fill chunk. -/
theorem processFillChunk_eq (hbs : 0 < s.blockSize.toNat) {val : UInt32}
    (hfile : file.drop pos = le32 val ++ rest) (hn : n < 2 ^ 32) {block : UInt32}
    (hlt : ∀ b ∈ s.blocks, b.block < block) (crc : Option UInt32) :
    ∃ s' : SparseFile,
      processFillChunk file s 4 (UInt32.ofNat n) block pos crc
        = .ok (s', crc.map (sparseCrc32 · (fillBytes val (n * s.blockSize.toNat))), pos + 4) ∧
      Pushed s s' [{ block, len := UInt32.ofNat (n * s.blockSize.toNat), type := .fill val }] := by
  have hread := readAll_eq hfile
  rw [length_le32] at hread
  have hblocks : (ofNat n).toNat = n := toNat_ofNat_of_lt' hn
  have hword : le32At (le32 val) 0 = val := by
    have := le32At_append val []
    rwa [append_nil] at this
  obtain ⟨list, hqueue, hpushed⟩ :=
    @queueBb_sparseFile s hbs ⟨block, ofNat (n * s.blockSize.toNat), .fill val⟩ hlt
  refine ⟨_, ?_, hpushed⟩
  unfold processFillChunk
  have hcrc : ∀ crc, (pieces copyBufSize (n * s.blockSize.toNat)).foldl
        (fun crc k => sparseCrc32 crc (fillBytes val k)) crc
      = sparseCrc32 crc (fillBytes val (n * s.blockSize.toNat)) :=
    foldl_pieces_crc (by decide) rfl
      (fillBytes_append val (show 4 ∣ copyBufSize by decide)) _
  simp only [hread, bind, Except.bind, hblocks, hword,
    sparseFileAddFill, backedBlockAddFill, hqueue, hcrc]
  rfl

/-- `process_skip_chunk`. -/
theorem processSkipChunk_eq (hn : n < 2 ^ 32) (crc : Option UInt32) :
    processSkipChunk s 0 (UInt32.ofNat n) crc
      = .ok (crc.map (sparseCrc32 · (zeros (n * s.blockSize.toNat)))) := by
  have hblocks : (ofNat n).toNat = n := toNat_ofNat_of_lt' hn
  have hcrc : ∀ crc, (pieces copyBufSize (n * s.blockSize.toNat)).foldl
        (fun crc k => sparseCrc32 crc (zeros k)) crc
      = sparseCrc32 crc (zeros (n * s.blockSize.toNat)) :=
    foldl_pieces_crc (by decide) rfl (zeros_append _) _
  unfold processSkipChunk
  simp only [hblocks, hcrc]
  rfl

/-- The size of the payload, as `process_chunk` computes it from the header. -/
theorem totalSz_sub (c : Chunk) (bs : Nat) :
    (c.header bs).totalSz - (UInt16.ofNat chunkHeaderLen).toUInt32
      = UInt32.ofNat c.payload.length := by
  show ofNat (chunkHeaderLen + c.payload.length) - ofNat chunkHeaderLen = _
  rw [ofNat_add, UInt32.add_comm, UInt32.add_sub_cancel]

theorem toInt_of_lt (h : n < 2 ^ 31) : toInt (UInt32.ofNat n).toNat = n := by
  rw [toNat_ofNat', Nat.mod_eq_of_lt (by omega)]
  exact toInt_eq_of_lt h

/-- One iteration of the loop of `sparse_file_read_sparse`, on an encoded chunk. -/
theorem readChunk_eq (fd : Int) (hbs : 0 < s.blockSize.toNat) {c : Chunk}
    (hok : c.Ok s.blockSize.toNat)
    (hfile : file.drop pos = c.encode s.blockSize.toNat ++ rest) (hcur : cur < 2 ^ 32)
    (hlt : ∀ b ∈ s.blocks, b.block.toNat < cur) (crc : Option UInt32) :
    ∃ s' : SparseFile,
      readChunk file fd (UInt16.ofNat chunkHeaderLen) s (UInt32.ofNat cur) pos crc
        = .ok (s', UInt32.ofNat (cur + c.blocks s.blockSize.toNat),
            pos + (c.encode s.blockSize.toNat).length,
            crc.map (sparseCrc32 · (c.expand s.blockSize.toNat))) ∧
      Pushed s s' (c.importBlock fd s.blockSize.toNat cur pos).toList := by
  have hfile' : file.drop pos
      = (c.header s.blockSize.toNat).encode ++ (c.payload ++ rest) := by
    rw [hfile, encode, append_assoc]
  have hread := readAll_eq hfile'
  have hdata := drop_add_of_drop hfile'
  rw [ChunkHeader.length_encode] at hread hdata
  have hlt' : ∀ b ∈ s.blocks, b.block < ofNat cur := by
    intro b hb
    rw [lt_iff_toNat_lt, toNat_ofNat_of_lt' hcur]
    exact hlt b hb
  have hskip : pos + chunkHeaderLen + ((UInt16.ofNat chunkHeaderLen).toNat - chunkHeaderLen)
      = pos + chunkHeaderLen := rfl
  have hret := toInt_of_lt hok.blocks_lt
  have hsum : ofNat cur + ofInt (c.blocks s.blockSize.toNat)
      = ofNat (cur + c.blocks s.blockSize.toNat) := by
    rw [ofInt_natCast, ofNat_add]
  -- `process_chunk` on the decoded header, whatever the chunk is.
  suffices hproc : ∃ s' : SparseFile,
      processChunk file fd s (UInt16.ofNat chunkHeaderLen) (c.header s.blockSize.toNat)
          (ofNat cur) (pos + chunkHeaderLen) crc
        = .ok (c.blocks s.blockSize.toNat, s', crc.map (sparseCrc32 · (c.expand s.blockSize.toNat)),
            pos + (c.encode s.blockSize.toNat).length) ∧
      Pushed s s' (c.importBlock fd s.blockSize.toNat cur pos).toList by
    obtain ⟨s', hrun, hprops⟩ := hproc
    refine ⟨s', ?_, hprops⟩
    unfold readChunk
    simp only [hread, bind, Except.bind, hskip, ChunkHeader.decode_encode, hrun]
    rw [hsum]
    rfl
  unfold processChunk
  rw [totalSz_sub, length_encode, ← Nat.add_assoc]
  cases c with
  | raw bytes =>
    obtain ⟨hdvd, hsize⟩ := hok.raw_ok bytes rfl
    obtain ⟨s', hrun, hprops⟩ :=
      processRawChunk_eq fd hbs hdata hdvd hsize hlt' crc
    refine ⟨s', ?_, hprops⟩
    simp only [header, payload, blocks] at hret hrun ⊢
    rw [hrun, hret]
    rfl
  | fill val n =>
    have hn : n < 2 ^ 32 := Nat.lt_trans hok.blocks_lt (by decide)
    obtain ⟨s', hrun, hprops⟩ := processFillChunk_eq hbs hdata hn hlt' crc
    refine ⟨s', ?_, hprops⟩
    simp only [header, payload, blocks, length_le32] at hret ⊢
    rw [show ofNat 4 = 4 from rfl, hrun, hret]
    rfl
  | dontCare n =>
    have hn : n < 2 ^ 32 := Nat.lt_trans hok.blocks_lt (by decide)
    refine ⟨s, ?_, rfl, rfl, rfl⟩
    simp only [header, payload, blocks, length_nil] at hret ⊢
    rw [show ofNat 0 = 0 from rfl, processSkipChunk_eq hn, hret]
    rfl

end

/-! ### The loop over all chunks -/

/-- The blocks of a list of chunks, together. -/
def totalOf (blockSize : Nat) (cs : List Chunk) : Nat := (cs.map (blocks blockSize)).sum

/-- The loop of `sparse_file_read_sparse` on encoded chunks: it goes on behind
them, with their blocks queued and their bytes in the checksum. A chunk without
blocks would leave `cur_block` where it is, so that the next block could not be
queued. -/
theorem readChunksLoop_eq {file : List UInt8} (fd : Int) {blockSize : UInt32}
    (hbs : 0 < blockSize.toNat) (n : Nat) (cs : List Chunk) (s : SparseFile) (cur : Nat)
    {pos : Nat} {rest : List UInt8} (crc : Option UInt32) (hs : s.blockSize = blockSize)
    (hok : ∀ c ∈ cs, c.Ok blockSize.toNat) (hpos : ∀ c ∈ cs, 0 < c.blocks blockSize.toNat)
    (hfile : file.drop pos = cs.flatMap (encode blockSize.toNat) ++ rest)
    (hcur : cur + totalOf blockSize.toNat cs < 2 ^ 32) (hlt : ∀ b ∈ s.blocks, b.block.toNat < cur) :
    ∃ s' : SparseFile,
      readChunksLoop file fd (UInt16.ofNat chunkHeaderLen) (cs.length + n) s
          (UInt32.ofNat cur) pos crc
        = readChunksLoop file fd (UInt16.ofNat chunkHeaderLen) n s'
            (UInt32.ofNat (cur + totalOf blockSize.toNat cs))
            (pos + (cs.flatMap (encode blockSize.toNat)).length)
            (crc.map (sparseCrc32 · (cs.flatMap (expand blockSize.toNat)))) ∧
      s'.len = s.len ∧ s'.blockSize = blockSize ∧
      s'.blocks = (importBlocks fd blockSize.toNat cs cur pos).foldl
        (pushBlock blockSize) s.blocks := by
  induction cs generalizing s cur pos crc with
  | nil =>
    refine ⟨s, ?_, rfl, hs, rfl⟩
    cases crc <;> simp [totalOf]
  | cons c cs ih =>
    subst hs
    rw [flatMap_cons, append_assoc] at hfile
    have hokc := hok c mem_cons_self
    have htot : totalOf s.blockSize.toNat (c :: cs)
        = c.blocks s.blockSize.toNat + totalOf s.blockSize.toNat cs := rfl
    have hposc := hpos c mem_cons_self
    obtain ⟨s₁, hrun₁, hlen₁, hsize₁, hblocks₁⟩ :=
      readChunk_eq fd hbs hokc hfile (by omega) hlt crc
    -- The queued block sits at `cur`, so the numbers stay below the next one.
    have hlt₁ : ∀ b ∈ s₁.blocks, b.block.toNat < cur + c.blocks s.blockSize.toNat := by
      have hold : ∀ b ∈ s.blocks, b.block.toNat < cur + c.blocks s.blockSize.toNat :=
        fun b hb => Nat.lt_of_lt_of_le (hlt b hb) (by omega)
      rw [hblocks₁]
      cases himp : c.importBlock fd s.blockSize.toNat cur pos with
      | none => exact hold
      | some new =>
        refine forall_mem_pushBlock hold ?_ fun last hlast _ =>
          hold last (mem_of_getLast? hlast)
        rw [block_importBlock himp, toNat_ofNat']
        omega
    obtain ⟨s', hrun, hlen, hsize, hblocks⟩ :=
      ih s₁ _ (crc.map (sparseCrc32 · (c.expand s.blockSize.toNat))) hsize₁
        (fun d hd => hok d (mem_cons_of_mem _ hd))
        (fun d hd => hpos d (mem_cons_of_mem _ hd)) (drop_add_of_drop hfile) (by omega) hlt₁
    refine ⟨s', ?_, hlen.trans hlen₁, hsize, ?_⟩
    · rw [show (c :: cs).length + n = (cs.length + n) + 1 by simp; omega, readChunksLoop, hrun₁]
      show readChunksLoop file fd _ (cs.length + n) s₁ _ _ _ = _
      rw [hrun]
      simp only [flatMap_cons, length_append, Nat.add_assoc]
      congr 1
      cases crc <;> simp [sparseCrc32_append]
    · rw [hblocks, hblocks₁, importBlocks, foldl_append]

end AndroidCore.Libsparse
