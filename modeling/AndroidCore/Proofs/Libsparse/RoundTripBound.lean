import AndroidCore.Lib.ExceptBind
import AndroidCore.Proofs.Libsparse.RoundTrip

/-!
# `AndroidCore.Proofs.Libsparse.RoundTripBound`: exactly which files survive

A sparse file below `2 ^ 32` bytes survives writing and importing exactly when
the block size fits an `int`, its blocks can be read, and the length of each
block can be rounded up to the block size in 32 bits (`Fits`).

The last condition is needed. A block that breaks it is the only block of its
file and starts at block number 0. `DIV_ROUND_UP` of its length is zero, so the
writer announces a chunk of no blocks, followed by a don't-care chunk for the
whole image. The reader queues an empty block at number 0, and after that it
either stops or queues nothing else (`readChunk_of_zero_block`): the data is
lost.

A callback takes lengths as `int`, so through a callback the raw blocks have to
be shorter than `2 ^ 31` bytes as well. `sparse_file_len` counts in a callback and
is exact for such blocks in the sparse format (`sparseFileLen_eq_length`).
-/

namespace AndroidCore.Libsparse

open Lib BackedBlock List Option UInt32

/-! ### What one chunk can queue -/

theorem orNull_eq_some_iff {α : Type} {x : Except ReadError α} {a : α} :
    orNull x = .ok (some a) ↔ x = .ok a := by
  cases x with
  | ok b => simp [orNull]
  | error e => cases e <;> simp [orNull]

theorem orFault_eq_ok_iff {α : Type} {x : Except Fault α} {a : α} :
    orFault x = .ok a ↔ x = .ok a := by
  cases x <;> simp [orFault]

/-- The file `s'` is `s` with one more block in the list, of number `cur`. -/
def Queued (s : SparseFile) (cur : UInt32) (s' : SparseFile) : Prop :=
  ∃ b list, b.block = cur ∧ queueBb s.backedBlockList b = .ok list ∧
    s' = { s with backedBlockList := list }

section
variable {file : List UInt8} {fd : Int} {s : SparseFile} {pos : Nat} {crc : Option UInt32}

theorem queued_of_processRawChunk {chunkSize blocks cur : UInt32}
    {r : SparseFile × Option UInt32 × Nat}
    (hrun : processRawChunk file fd s chunkSize blocks cur pos crc = .ok r) :
    Queued s cur r.1 := by
  unfold processRawChunk sparseFileAddFd backedBlockAddFd at hrun
  simp only [check_eq_ok_iff, bind_eq_ok_iff, orFault_eq_ok_iff, pure_eq_ok_iff] at hrun
  obtain ⟨_, _, _, s', ⟨list, hlist, rfl⟩, hrest⟩ := hrun
  refine ⟨_, list, rfl, hlist, ?_⟩
  cases crc with
  | none => rw [← Except.ok.inj hrest]
  | some c =>
    obtain ⟨_, _, hr⟩ := bind_eq_ok_iff.mp hrest
    rw [← Except.ok.inj hr]

theorem queued_of_processFillChunk {chunkSize blocks cur : UInt32}
    {r : SparseFile × Option UInt32 × Nat}
    (hrun : processFillChunk file s chunkSize blocks cur pos crc = .ok r) :
    Queued s cur r.1 := by
  unfold processFillChunk sparseFileAddFill backedBlockAddFill at hrun
  simp only [check_eq_ok_iff, bind_eq_ok_iff, orFault_eq_ok_iff, pure_eq_ok_iff] at hrun
  obtain ⟨_, _, _, s', ⟨list, hlist, rfl⟩, rfl⟩ := hrun
  exact ⟨_, list, rfl, hlist, rfl⟩

/-- An iteration of the reader that returns has queued one block, with the number
`cur_block`, or left the file alone. -/
theorem queued_of_readChunk {hdrSz : UInt16} {cur : UInt32}
    {r : SparseFile × UInt32 × Nat × Option UInt32}
    (hrun : readChunk file fd hdrSz s cur pos crc = .ok r) : Queued s cur r.1 ∨ r.1 = s := by
  unfold readChunk processChunk at hrun
  simp only [bind_eq_ok_iff, check_eq_ok_iff, pure_eq_ok_iff] at hrun
  obtain ⟨_, _, q, hchunk, _, rfl⟩ := hrun
  split_ifs at hchunk
  · obtain ⟨r, hr, rfl⟩ := by simpa only [bind_eq_ok_iff, pure_eq_ok_iff] using hchunk
    exact .inl (queued_of_processRawChunk hr)
  · obtain ⟨r, hr, rfl⟩ := by simpa only [bind_eq_ok_iff, pure_eq_ok_iff] using hchunk
    exact .inl (queued_of_processFillChunk hr)
  · obtain ⟨_, _, rfl⟩ := by simpa only [bind_eq_ok_iff, pure_eq_ok_iff] using hchunk
    exact .inr rfl
  · obtain ⟨_, _, rfl⟩ := by simpa only [bind_eq_ok_iff, pure_eq_ok_iff] using hchunk
    exact .inr rfl
  · cases hchunk
    exact .inr rfl

end

/-! ### A block that is too long -/

section
variable {env : Env} {s : SparseFile} {bb : BackedBlock}

/-- A block whose length cannot be rounded up is the only one, and starts the
image. -/
theorem SparseFile.Valid.eq_singleton_of_not_fits (h : s.Valid) (hlen : s.len < 2 ^ 32)
    (hbb : bb ∈ s.blocks) (hfit : ¬ Fits s.blockSize bb) : s.blocks = [bb] ∧ bb.block = 0 := by
  have htotal := h.len_eq_cast
  have hinside : ∀ b ∈ s.blocks, b.block.toNat * s.blockSize.toNat + b.len.toNat
      ≤ s.totalBlocks * s.blockSize.toNat := by
    intro b hb
    have := h.inside b hb
    omega
  unfold Fits at hfit
  have hin := hinside bb hbb
  have hzero : bb.block.toNat = 0 := by
    by_contra hne
    have := Nat.mul_le_mul_right s.blockSize.toNat (Nat.one_le_iff_ne_zero.mpr hne)
    omega
  -- A block behind `bb` would start at the last block boundary below `2 ^ 32`.
  have hnext : ∀ b ∈ s.blocks, ¬ Before s.blockSize.toNat bb b := by
    intro b hb hbefore
    have hbin := hinside b hb
    have hblen := h.nonempty b hb
    have hlt : b.block.toNat < s.totalBlocks :=
      Nat.lt_of_mul_lt_mul_right (show b.block.toNat * s.blockSize.toNat
        < s.totalBlocks * s.blockSize.toNat by omega)
    have hmul := Nat.mul_le_mul_right s.blockSize.toNat (Nat.succ_le_of_lt hlt)
    rw [Nat.succ_mul] at hmul
    unfold Before at hbefore
    omega
  have hprev : ∀ b ∈ s.blocks, ¬ Before s.blockSize.toNat b bb := by
    intro b hb hbefore
    have hblen := h.nonempty b hb
    unfold Before at hbefore
    rw [hzero] at hbefore
    omega
  obtain ⟨front, back, hsplit⟩ := append_of_mem hbb
  have hord := h.ordered
  rw [hsplit] at hord
  obtain ⟨_, hback, hfront⟩ := pairwise_append.mp hord
  have hback' := (pairwise_cons.mp hback).1
  have hfnil : front = [] := eq_nil_iff_forall_not_mem.mpr fun b hb =>
    hprev b (by rw [hsplit]; exact mem_append_left _ hb)
      (hfront b hb bb mem_cons_self)
  have hbnil : back = [] := eq_nil_iff_forall_not_mem.mpr fun b hb =>
    hnext b (by rw [hsplit]; exact mem_append_right _ (mem_cons_of_mem _ hb))
      (hback' b hb)
  refine ⟨by rw [hsplit, hfnil, hbnil]; rfl, ?_⟩
  apply UInt32.toNat_inj.mp
  exact hzero

/-- Once the reader has queued a block at number 0 and `cur_block` is still 0, a
further chunk changes nothing in the list, unless it stops the reader. -/
theorem readChunk_of_zero_block {file : List UInt8} {fd : Int} {hdrSz : UInt16} {pos : Nat}
    {crc : Option UInt32} {b : BackedBlock} (hlist : s.blocks = [b]) (hblock : b.block = 0)
    {s' : SparseFile} {cur : UInt32} {pos' : Nat} {crc' : Option UInt32}
    (hrun : readChunk file fd hdrSz s 0 pos crc = .ok (s', cur, pos', crc')) : s' = s := by
  rcases queued_of_readChunk hrun with ⟨new, list, hnew, hlist', _⟩ | hs'
  · obtain ⟨f, hfault⟩ := queueBb_same_head hlist (hnew.trans hblock.symm) (by simp)
    rw [hfault] at hlist'
    cases hlist'
  · exact hs'

variable {ws : List (List UInt8)}

/-- The buffers of a block that is too long start with a chunk of no blocks. -/
theorem blockWrites_of_not_fits (hbs : 0 < s.blockSize.toNat) (hfit : ¬ Fits s.blockSize bb)
    (hws : blockWrites env s.blockSize bb = some ws) :
    ∃ c more, ws.flatten = Chunk.encode s.blockSize.toNat c ++ more ∧
      c.Ok s.blockSize.toNat ∧ c.blocks s.blockSize.toNat = 0 ∧
      ∀ fd pos, ∃ new, c.importBlock fd s.blockSize.toNat 0 pos = some new ∧ new.len = 0 := by
  have halign : align bb.len s.blockSize = 0 := by
    unfold align
    rw [divRoundUp_of_not_fits hbs hfit, mul_zero]
  unfold blockWrites at hws
  split at hws
  · rename_i val _
    have hheader : fillChunkHeader s.blockSize bb.len
        = (Chunk.fill val 0).header s.blockSize.toNat := by
      unfold fillChunkHeader Chunk.header
      rw [halign]
      simp [Chunk.type, Chunk.blocks, Chunk.payload]
    refine ⟨.fill val 0, [], ?_, ⟨by simp [Chunk.blocks], fun bytes h => by simp at h⟩, rfl,
      fun fd pos => ⟨_, rfl, ?_⟩⟩
    · rw [← some.inj hws]
      simp [fillWrites, hheader, Chunk.encode, Chunk.payload]
    · simp
  · obtain ⟨data, _, rfl⟩ := map_eq_some_iff.mp hws
    have hheader : dataChunkHeader s.blockSize bb.len
        = (Chunk.raw []).header s.blockSize.toNat := by
      unfold dataChunkHeader Chunk.header
      rw [halign]
      simp [Chunk.type, Chunk.blocks, Chunk.payload]
    refine ⟨.raw [], (rawWrites s.blockSize bb.len data).tail.flatten, ?_,
      ⟨by simp [Chunk.blocks], fun bytes h => ?_⟩, by simp [Chunk.blocks],
      fun fd pos => ⟨_, rfl, rfl⟩⟩
    · simp [rawWrites, hheader, Chunk.encode, Chunk.payload]
    · rw [Chunk.raw.injEq] at h
      rw [← h]
      exact ⟨Nat.dvd_zero _, by decide⟩

/-- The bytes of a file with a block that is too long: the header announces two
chunks, and the first one has no blocks. -/
theorem SparseFile.Valid.sparseWrites_of_not_fits (h : s.Valid) (hlen : s.len < 2 ^ 32)
    (hbb : bb ∈ s.blocks) (hfit : ¬ Fits s.blockSize bb) (hws : sparseWrites env s false = some ws)
    :
    ∃ c rest, ws.flatten = (sparseHeaderOf s.blockSize s.len 2 false).encode ++
        (Chunk.encode s.blockSize.toNat c ++ rest) ∧
      c.Ok s.blockSize.toNat ∧ c.blocks s.blockSize.toNat = 0 ∧
      ∀ fd pos, ∃ new, c.importBlock fd s.blockSize.toNat 0 pos = some new ∧ new.len = 0 := by
  have hpos := h.blockSize_pos
  obtain ⟨hsingle, hblock⟩ := h.eq_singleton_of_not_fits hlen hbb hfit
  have hend : blockEnd s.blockSize bb = 0 := by
    unfold blockEnd
    rw [divRoundUp_of_not_fits hpos hfit, hblock, UInt32.add_zero]
  have htotal : 0 < s.totalBlocks := by
    have hle := h.endBlock_le hbb
    have hnum := numBlocks_pos hpos (h.nonempty bb hbb)
    unfold endBlock at hle
    omega
  have hcount : sparseCountChunks s = 2 := by
    unfold sparseCountChunks
    rw [hsingle]
    simp only [countChunksLoop, hend, h.divRoundUp64_len, hblock]
    rw [if_pos (by exact_mod_cast htotal)]
    rfl
  have hgap : gapWrites s.blockSize 0 bb = [] := by
    unfold gapWrites
    rw [hblock, if_neg (UInt32.lt_irrefl _)]
  obtain ⟨ws', hstream, rfl⟩ := map_eq_some_iff.mp hws
  rw [hsingle, streamWrites] at hstream
  split at hstream
  · rename_i wb wr hwb _
    obtain ⟨c, more, hflat, hprops⟩ := blockWrites_of_not_fits hpos hfit hwb
    refine ⟨c, more ++ (wr.flatten ++ s.tailWrites.flatten), ?_, hprops⟩
    rw [hcount, ← some.inj hstream, hgap]
    simp [hflat]
  · cases hstream

/-- Importing two chunks of which the first has no blocks leaves one empty block
at number 0, if it succeeds. -/
theorem import_of_zero_chunk {hdr : SparseHeader} {c : Chunk} {rest : List UInt8} {fd : Int}
    (hpos : 0 < hdr.blkSz.toNat) (hok : headerOk hdr = true)
    (hsz : hdr.fileHdrSz = UInt16.ofNat sparseHeaderLen)
    (hchdr : hdr.chunkHdrSz = UInt16.ofNat chunkHeaderLen) (hchunks : hdr.totalChunks = 2)
    (hcok : c.Ok hdr.blkSz.toNat) (hczero : c.blocks hdr.blkSz.toNat = 0)
    (hcimp : ∀ fd pos, ∃ new, c.importBlock fd hdr.blkSz.toNat 0 pos = some new ∧ new.len = 0)
    (himport : sparseFileImport (hdr.encode ++ (c.encode hdr.blkSz.toNat ++ rest)) fd false
      = .ok (some s)) :
    ∃ new, s.blocks = [new] ∧ new.block = 0 ∧ new.len = 0 := by
  have hdrop : (hdr.encode ++ (c.encode hdr.blkSz.toNat ++ rest)).drop sparseHeaderLen
      = c.encode hdr.blkSz.toNat ++ rest := drop_left' (SparseHeader.length_encode _)
  have hempty : ∀ b ∈ (sparseFileNew hdr.blkSz (hdr.totalBlks.toNat * hdr.blkSz.toNat)).blocks,
      b.block.toNat < 0 := forall_mem_nil _
  have hsize : (sparseFileNew hdr.blkSz (hdr.totalBlks.toNat * hdr.blkSz.toNat)).blockSize
      = hdr.blkSz := rfl
  obtain ⟨s₁, hrun₁, _, _, hlist₁⟩ :=
    readChunk_eq (s := sparseFileNew hdr.blkSz (hdr.totalBlks.toNat * hdr.blkSz.toNat)) fd hpos
      hcok hdrop (by decide) hempty none
  obtain ⟨new, hnew, hnewlen⟩ := hcimp fd sparseHeaderLen
  rw [hsize] at hrun₁
  rw [hsize, hnew] at hlist₁
  have hlist : s₁.blocks = [new] := hlist₁
  have hnewblock : new.block = 0 := Chunk.block_importBlock hnew
  rw [hczero] at hrun₁
  rw [sparseFileImport_header hdr _ _ hok hsz, hchunks, hchdr, orNull_eq_some_iff] at himport
  simp only [bind_eq_ok_iff, check_eq_ok_iff, pure_eq_ok_iff] at himport
  obtain ⟨q, hloop, _, rfl⟩ := himport
  rw [show toNat 2 = 1 + 1 from rfl, readChunksLoop, bind_eq_ok_iff] at hloop
  obtain ⟨q₁, hq₁, hloop⟩ := hloop
  obtain rfl := Except.ok.inj (hrun₁.symm.trans hq₁)
  simp only [readChunksLoop, bind_eq_ok_iff, Except.ok.injEq] at hloop
  obtain ⟨⟨s₂, cur₂, pos₂, crc₂⟩, hrun₂, hq⟩ := hloop
  have hsame := readChunk_of_zero_block hlist hnewblock hrun₂
  exact ⟨new, by rw [← hq, hsame, hlist], hnewblock, hnewlen⟩

/-- A file with a block that is too long does not survive. -/
theorem SparseFile.Valid.not_roundTrips (h : s.Valid) (hlen : s.len < 2 ^ 32) (hbb : bb ∈ s.blocks)
    (hfit : ¬ Fits s.blockSize bb) (hws : sparseWrites env s false = some ws) :
    ¬ RoundTrips env s ws.flatten := by
  intro hround
  have hpos := h.blockSize_pos
  obtain ⟨hsingle, hblock⟩ := h.eq_singleton_of_not_fits hlen hbb hfit
  obtain ⟨c, rest, hfile, hcok, hczero, hcimp⟩ := h.sparseWrites_of_not_fits hlen hbb hfit hws
  obtain ⟨s', himport, hsize, _, himage⟩ :=
    hround 0 { env with fd := fun _ => some ws.flatten } rfl
  rw [hfile] at himport
  obtain ⟨new, hlist, hnewblock, hnewlen⟩ :=
    import_of_zero_chunk hpos rfl rfl rfl rfl hcok hczero hcimp himport
  -- The import backs no block, while the file backs block 0.
  have hnone : s'.image { env with fd := fun _ => some ws.flatten } 0 = none := by
    unfold SparseFile.image
    rw [hlist]
    refine imageOf_eq_none fun b hb => ?_
    rw [mem_singleton] at hb
    subst hb
    unfold endBlock
    rw [hnewblock, hsize, UInt32.toNat_zero, Nat.zero_add, numBlocks_le_iff hpos, hnewlen]
    exact Nat.zero_le _
  have hsome : (s.image env 0).isSome := by
    unfold SparseFile.image
    rw [hsingle, imageOf_cons, imageOf_nil, or_none, image_isSome_iff]
    have := numBlocks_pos hpos (h.nonempty bb hbb)
    unfold endBlock
    rw [hblock, UInt32.toNat_zero]
    omega
  have hcontra := himage 0
  rw [hnone, eq_comm, map_eq_none_iff] at hcontra
  rw [hcontra] at hsome
  cases hsome

/-- The buffers of the writer survive the import exactly when every length can be
rounded up. -/
theorem SparseFile.Valid.roundTrips_iff (h : s.Valid) (h4 : 4 ∣ s.blockSize.toNat)
    (hlen : s.len < 2 ^ 32) (hbs : s.blockSize.toNat < 2 ^ 31) (hread : s.Readable env)
    (hws : sparseWrites env s false = some ws) :
    RoundTrips env s ws.flatten ↔ ∀ bb ∈ s.blocks, Fits s.blockSize bb := by
  have hpos := h.blockSize_pos
  constructor
  · intro hround bb hbb
    by_contra hfit
    exact h.not_roundTrips hlen hbb hfit hws hround
  · intro hfits
    have hbytes : s.totalBlocks * s.blockSize.toNat < 2 ^ 32 := by
      have := h.len_eq_cast
      omega
    have henc : s.Encodable env :=
      { toValid := h, blockSize_lt := hbs, readable := hread, fits := hfits
        blocks_lt := Nat.lt_of_le_of_lt (Nat.le_mul_of_pos_right _ hpos) hbytes }
    rw [henc.sparseWrites_flatten hws]
    exact henc.roundTrips (by omega) hlen

/-! ### Through an output -/

/-- A block that was written to a file can be read. -/
theorem readable_of_writeBlock {σ : Type} {ops : OutputFileOps σ} {out : OutputFile σ}
    (hlen : 0 < bb.len.toNat) (hok : (sparseFileWriteBlock env ops out bb).1 = 0) :
    env.cell bb.type 0 bb.len.toNat ≠ .unreadable := by
  by_contra hcell
  have hnone : blockWrites env out.blockSize bb = none := by
    rw [← not_isSome_iff_eq_none, blockWrites_isSome_iff out.blockSize hlen]
    exact not_not.mpr hcell
  obtain ⟨ret, hret, heq⟩ := @sparseFileWriteBlock_of_none σ ops out env bb hnone
  rw [heq] at hok
  omega

/-- Any output, and the import of its bytes: it takes the buffers of the files with blocks of
`P`, and no other blocks. -/
theorem SparseFile.Valid.output_roundTrip_iff {σ : Type} {ops : OutputFileOps σ} {sink : σ}
    {content : σ → List UInt8} {P : BackedBlock → Prop} (h : s.Valid)
    (h4 : 4 ∣ s.blockSize.toNat) (hlen : s.len < 2 ^ 32)
    (htakes : s.blockSize.toNat < 2 ^ 31 → (∀ bb ∈ s.blocks, P bb) → ∀ ws,
      sparseWrites env s false = some ws →
        Accepts ops ws ∧ content (feed ops sink ws) = ws.flatten)
    (honly : ∀ (out : OutputFile σ) bb, out.sparseOps = true → 0 < bb.len.toNat →
      (sparseFileWriteBlock env ops out bb).1 = 0 → P bb) :
    (∃ sink', writeSparseFile env ops s sink true false = .ok (0, sink') ∧
        RoundTrips env s (content sink')) ↔
      s.blockSize.toNat < 2 ^ 31 ∧ s.Readable env ∧ (∀ bb ∈ s.blocks, Fits s.blockSize bb) ∧
        ∀ bb ∈ s.blocks, P bb := by
  have htail := h.toInside.tailLen_nonneg
  constructor
  · rintro ⟨sink', hrun, hround⟩
    obtain ⟨hbs, hblocks⟩ := writeBlock_of_writeSparseFile hrun
    have hread : s.Readable env := by
      intro bb hbb
      obtain ⟨out, _, _, hok⟩ := hblocks bb hbb
      exact readable_of_writeBlock (h.nonempty bb hbb) hok
    have hP : ∀ bb ∈ s.blocks, P bb := by
      intro bb hbb
      obtain ⟨out, _, hsp, hok⟩ := hblocks bb hbb
      exact honly out bb hsp (h.nonempty bb hbb) hok
    obtain ⟨ws, hws⟩ := h.exists_sparseWrites hread false
    obtain ⟨hacc, hcontent⟩ := htakes hbs hP ws hws
    rw [writeSparseFile_sparse_eq hbs htail hws hacc] at hrun
    obtain rfl := (Prod.mk.inj (Except.ok.inj hrun)).2
    rw [hcontent] at hround
    exact ⟨hbs, hread, (h.roundTrips_iff h4 hlen hbs hread hws).mp hround, hP⟩
  · rintro ⟨hbs, hread, hfits, hP⟩
    obtain ⟨ws, hws⟩ := h.exists_sparseWrites hread false
    obtain ⟨hacc, hcontent⟩ := htakes hbs hP ws hws
    refine ⟨_, writeSparseFile_sparse_eq hbs htail hws hacc, ?_⟩
    rw [hcontent]
    exact (h.roundTrips_iff h4 hlen hbs hread hws).mpr hfits

/-! ### Through a callback -/

/-- A callback that stores the bytes it is handed, and fails on a negative
length. -/
def collect (bytes : List UInt8) (data : Option (List UInt8)) (len : Int) : Int × List UInt8 :=
  if len < 0 then (-1, bytes)
  else (0, bytes ++ (data.getD (zeros len.toNat)).take len.toNat)

theorem collect_write (bytes d : List UInt8) :
    (callbackFileOps collect).write bytes d
      = if d.length % 2 ^ 32 < 2 ^ 31 then (0, bytes ++ d.take (d.length % 2 ^ 32))
        else (-1, bytes) := by
  have hint : toInt d.length = if d.length % 2 ^ 32 < 2 ^ 31 then ((d.length % 2 ^ 32 : Nat) : Int)
      else ((d.length % 2 ^ 32) : Int) - 2 ^ 32 := by
    unfold toInt
    rw [Int.bmod_def]
    split <;> split <;> omega
  unfold callbackFileOps collect
  simp only [hint]
  by_cases hlt : d.length % 2 ^ 32 < 2 ^ 31
  · rw [if_pos hlt, if_pos hlt, if_neg (by omega), Int.toNat_natCast, getD_some]
  · rw [if_neg hlt, if_neg hlt, if_pos (by omega)]

/-- The buffers a callback can store: those shorter than `2 ^ 31` bytes. -/
theorem feed_collect (h : ∀ d ∈ ws, d.length < 2 ^ 31) :
    ∀ bytes, feed (callbackFileOps collect) bytes ws = bytes ++ ws.flatten := by
  induction ws with
  | nil => simp [feed]
  | cons d ws ih =>
    intro bytes
    have hd := h d mem_cons_self
    rw [feed_cons, collect_write, Nat.mod_eq_of_lt (by omega), if_pos hd, take_length,
      ih (fun e he => h e (mem_cons_of_mem _ he)), flatten_cons, append_assoc]

theorem accepts_collect (h : ∀ d ∈ ws, d.length < 2 ^ 31) :
    Accepts (callbackFileOps collect) ws := by
  intro d hd bytes
  have hlt := h d hd
  rw [collect_write, Nat.mod_eq_of_lt (by omega), if_pos hlt]

/-- The padding behind a block is shorter than a block, also when the rounding
wraps. -/
theorem zeroLen_lt {blockSize : UInt32} (hbs : 0 < blockSize.toNat) (bb : BackedBlock)
    (hlen : 0 < bb.len.toNat) : (align bb.len blockSize - bb.len).toNat < blockSize.toNat := by
  by_cases hfit : Fits blockSize bb
  · have hround := (len_le_numBlocks_mul hbs bb).2
    rw [toNat_zeroLen_of_fits hbs hfit]
    omega
  · unfold align
    rw [divRoundUp_of_not_fits hbs hfit, mul_zero, UInt32.toNat_sub, UInt32.toNat_zero]
    unfold Fits at hfit
    omega

/-- Raw blocks shorter than `2 ^ 31` bytes: the callback can store every buffer. -/
theorem length_of_mem_sparseWrites {crc : Bool} (h : s.Ordered) (hbs : s.blockSize.toNat < 2 ^ 31)
    (hshort : ∀ bb ∈ s.blocks, (∃ val, bb.type = .fill val) ∨ bb.len.toNat < 2 ^ 31)
    (hws : sparseWrites env s crc = some ws) : ∀ d ∈ ws, d.length < 2 ^ 31 := by
  have hheader : ∀ hdr : ChunkHeader, hdr.encode.length < 2 ^ 31 := fun hdr => by
    rw [ChunkHeader.length_encode]
    decide
  have hblock : ∀ bb ∈ s.blocks, ∀ wb, blockWrites env s.blockSize bb = some wb →
      ∀ d ∈ wb, d.length < 2 ^ 31 := by
    intro bb hbb wb hwb d hd
    have hlen := h.nonempty bb hbb
    unfold blockWrites at hwb
    split at hwb
    · rw [← some.inj hwb] at hd
      simp only [fillWrites, mem_cons, not_mem_nil, or_false] at hd
      rcases hd with rfl | rfl
      · exact hheader _
      · rw [length_le32]
        decide
    · rename_i hnotfill
      obtain ⟨data, hdata, rfl⟩ := map_eq_some_iff.mp hwb
      have hzero := zeroLen_lt h.blockSize_pos bb hlen
      simp only [rawWrites, mem_append, mem_cons, not_mem_nil, or_false] at hd
      rcases hd with (rfl | rfl) | hpad
      · exact hheader _
      · rw [length_source hdata]
        refine (hshort bb hbb).resolve_left ?_
        rintro ⟨val, hval⟩
        exact hnotfill val hval
      · split at hpad
        · rw [mem_singleton.mp hpad, length_zeros]
          omega
        · cases hpad
  have hstream : ∀ blocks : List BackedBlock, (∀ bb ∈ blocks, bb ∈ s.blocks) →
      ∀ last wr, streamWrites env s.blockSize blocks last = some wr →
        ∀ d ∈ wr, d.length < 2 ^ 31 := by
    intro blocks
    induction blocks with
    | nil =>
      intro _ last wr hwr d hd
      rw [← some.inj hwr] at hd
      cases hd
    | cons bb rest ih =>
      intro hsub last wr hwr d hd
      rw [streamWrites] at hwr
      split at hwr
      · rename_i wb wr' hwb hwr'
        rw [← some.inj hwr, mem_append, mem_append] at hd
        rcases hd with (hgap | hd) | hd
        · unfold gapWrites at hgap
          split at hgap
          · exact mem_singleton.mp hgap ▸ hheader _
          · cases hgap
        · exact hblock bb (hsub bb mem_cons_self) wb hwb d hd
        · exact ih (fun b hb => hsub b (mem_cons_of_mem _ hb)) _ wr' hwr' d hd
      · cases hwr
  obtain ⟨wr, hwr, rfl⟩ := map_eq_some_iff.mp hws
  intro d hd
  simp only [mem_append, mem_singleton] at hd
  rcases hd with ((rfl | hd) | hd) | hcrc
  · rw [SparseHeader.length_encode]
    decide
  · exact hstream s.blocks (fun _ hb => hb) 0 wr hwr d hd
  · unfold SparseFile.tailWrites padWrites at hd
    split at hd
    · exact mem_singleton.mp hd ▸ hheader _
    · cases hd
  · cases crc with
    | false => exact absurd hcrc not_mem_nil
    | true =>
      simp only [if_true, crcWrites, mem_cons, not_mem_nil, or_false] at hcrc
      rcases hcrc with rfl | rfl
      · exact hheader _
      · rw [length_le32]
        decide

/-- A raw block the callback stored is shorter than `2 ^ 31` bytes. -/
theorem short_of_writeBlock {out : OutputFile (List UInt8)} (hsp : out.sparseOps = true)
    (hlen : 0 < bb.len.toNat)
    (hok : (sparseFileWriteBlock env (callbackFileOps collect) out bb).1 = 0) :
    (∃ val, bb.type = .fill val) ∨ bb.len.toNat < 2 ^ 31 := by
  rcases fill_or_source hlen (readable_of_writeBlock hlen hok) with hfill | ⟨data, hdata⟩
  · exact .inl hfill
  by_contra hlong
  have hdlen := length_source hdata
  have hlt := bb.len.toNat_lt
  have hfail : ∀ bytes, ((callbackFileOps collect).write bytes data).1 < 0 := by
    intro bytes
    rw [collect_write, if_neg (by omega)]
    exact Int.negSucc_lt_zero 0
  rw [sparseFileWriteBlock_of_source hdata, writeDataChunk, if_pos hsp,
    writeSparseDataChunk_of_fail hfail] at hok
  cases hok

end

/-! ### Main result -/

/-- Sparse format round trip. Take a sparse file of whole blocks below `2 ^ 32`
bytes, with a block size that is a multiple of 4. Written to a file and imported
again it gives back its block size, its length and its image exactly when the
block size fits an `int`, the blocks can be read, and no length overflows when it
is rounded up to the block size. Through a callback the raw blocks also have to
fit an `int`. -/
theorem sparseFile_roundTrip_iff (env : Env) (s : SparseFile) (hs : s.Valid)
    (h4 : 4 ∣ s.blockSize.toNat) (hlen : s.len < 2 ^ 32) :
    ((∃ f, sparseFileWrite env s true false = .ok (0, f) ∧ RoundTrips env s f.content) ↔
      s.blockSize.toNat < 2 ^ 31 ∧ s.Readable env ∧ ∀ bb ∈ s.blocks, Fits s.blockSize bb) ∧
    ((∃ bytes, sparseFileCallback env s true false collect [] = .ok (0, bytes) ∧
        RoundTrips env s bytes) ↔
      s.blockSize.toNat < 2 ^ 31 ∧ s.Readable env ∧ (∀ bb ∈ s.blocks, Fits s.blockSize bb) ∧
        ∀ bb ∈ s.blocks, (∃ val, bb.type = .fill val) ∨ bb.len.toNat < 2 ^ 31) := by
  constructor
  · -- A file takes every buffer.
    refine (hs.output_roundTrip_iff h4 hlen (fun _ _ ws _ => ?_)
      fun _ _ _ _ _ => trivial).trans (by simp)
    exact ⟨accepts_fileOps ws, congrArg FileSink.content (feed_fileOps ws [])⟩
  · refine hs.output_roundTrip_iff h4 hlen (fun hbs hshort ws hws => ?_)
      fun _ _ => short_of_writeBlock
    have hbuf := length_of_mem_sparseWrites hs.toOrdered hbs hshort hws
    exact ⟨accepts_collect hbuf, feed_collect hbuf []⟩

/-- A file of two 4-byte blocks: a fill, and a block that is not backed. -/
def twoBlockFile : SparseFile where
  len := 8
  backedBlockList :=
    { dataBlocks := [{ block := 0, len := 4, type := .fill 0x2a }]
      lastUsed := none, blockSize := 4 }

theorem twoBlockFile_valid : twoBlockFile.Valid where
  blockSize_pos := by decide
  nonempty := by decide
  ordered := by decide
  len_eq := ⟨2, rfl⟩
  inside := by decide

theorem sparseFile_roundTrip_twoBlockFile :
    ∃ f, sparseFileWrite Env.blank twoBlockFile true false = .ok (0, f) ∧
      RoundTrips Env.blank twoBlockFile f.content :=
  (sparseFile_roundTrip_iff Env.blank twoBlockFile twoBlockFile_valid (by decide) (by decide)).1.mpr
    ⟨by decide, by decide, by decide⟩

/-- A counter adds up the lengths of buffers that fit an `int`. -/
theorem feed_counterOps_of_lt {ws : List (List UInt8)} (h : ∀ d ∈ ws, d.length < 2 ^ 31) :
    feed counterOps 0 ws = ws.flatten.length := by
  rw [feed_counterOps, Int.zero_add]
  induction ws with
  | nil => rfl
  | cons d ws ih =>
    obtain ⟨hd, hws⟩ := forall_mem_cons.mp h
    rw [map_cons, sum_cons, ih hws, toInt_eq_of_lt hd, flatten_cons, length_append]
    exact (Int.natCast_add _ _).symm

/-- In the sparse format, with or without a crc chunk, `sparse_file_len` is the number of bytes
that `sparse_file_write` writes, when the raw blocks fit an `int`. -/
theorem sparseFileLen_eq_length (env : Env) (s : SparseFile) (crc : Bool) (hs : s.Valid)
    (hbs : s.blockSize.toNat < 2 ^ 31) (hread : s.Readable env)
    (hshort : ∀ bb ∈ s.blocks, (∃ val, bb.type = .fill val) ∨ bb.len.toNat < 2 ^ 31) :
    ∃ f, sparseFileWrite env s true crc = .ok (0, f) ∧
      sparseFileLen env s true crc = .ok f.content.length := by
  obtain ⟨ws, hws⟩ := hs.exists_sparseWrites hread crc
  have htail := hs.toInside.tailLen_nonneg
  have hfeed := feed_counterOps_of_lt (length_of_mem_sparseWrites hs.toOrdered hbs hshort hws)
  refine ⟨_, writeSparseFile_sparse_eq hbs htail hws (accepts_fileOps ws), ?_⟩
  have hfile := feed_fileOps ws []
  rw [nil_append, length_nil] at hfile
  unfold sparseFileLen
  rw [writeSparseFile_sparse_eq hbs htail hws (accepts_counterOps ws), hfeed, hfile]
  rfl

theorem sparseFileLen_eq_length_twoBlockFile :
    ∃ f, sparseFileWrite Env.blank twoBlockFile true true = .ok (0, f) ∧
      sparseFileLen Env.blank twoBlockFile true true = .ok f.content.length :=
  sparseFileLen_eq_length Env.blank twoBlockFile true twoBlockFile_valid (by decide) (by decide)
    (by simp [twoBlockFile, SparseFile.blocks])

/-- One fill block of `2 ^ 32 - 4` bytes in blocks of 12. -/
def overlongFile : SparseFile where
  len := 2 ^ 32 - 4
  backedBlockList :=
    { dataBlocks := [{ block := 0, len := 0xfffffffc, type := .fill 0x2a }]
      lastUsed := none, blockSize := 12 }

/-- The whole image of `overlongFile` is filled, and the import of what was
written backs nothing: the file is valid, its block size a multiple of 4, and
both calls succeed. -/
theorem overlongFile_not_roundTrip :
    overlongFile.Valid ∧ 4 ∣ overlongFile.blockSize.toNat ∧ overlongFile.len < 2 ^ 32 ∧
      ∃ f s', sparseFileWrite Env.blank overlongFile true false = .ok (0, f) ∧
        sparseFileImport f.content 3 false = .ok (some s') ∧
        overlongFile.image Env.blank 0 = some (.fill 0x2a 12) ∧
        s'.image { Env.blank with fd := fun _ => some f.content } 0 = none := by
  refine ⟨⟨⟨by decide, by decide, by decide⟩, ⟨357913941, by decide⟩, by decide⟩, by decide,
    by decide, _, _, rfl, rfl, by decide, by decide⟩

end AndroidCore.Libsparse
