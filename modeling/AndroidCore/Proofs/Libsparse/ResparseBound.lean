import AndroidCore.Proofs.Libsparse.Resparse

/-!
# `AndroidCore.Proofs.Libsparse.ResparseBound`: how long the pieces are

`move_chunks_up_to_len` keeps a running count of what its blocks take, and
`sparse_file_len` measures the piece afterwards. The two follow the same buffers
(`sparseFileLen_cases`), so a piece that holds whole blocks only is never longer
than `max_len`. For a block that is cut, the count leaves out the skip chunk in
front of it. The overhead absorbs that chunk unless the piece needs an end skip
chunk and a crc chunk as well: `CutOverflows` is the exact condition, and
`resparse_bounded_iff` the bound.
-/

namespace AndroidCore.Libsparse

open BackedBlock List UInt32

/-! ### What `sparse_file_len` adds up -/

/-- What the skip chunk behind the last block adds. -/
def tailCost (s : SparseFile) : Int :=
  if 0 < s.tailLen ∧ s.tailLen.tmod s.blockSize.toNat = 0 then 12 else 0

theorem counted_tailWrites (s : SparseFile) : counted s.tailWrites = tailCost s := by
  unfold SparseFile.tailWrites padWrites tailCost counted
  split
  · rw [map_singleton, toInt_chunkHeader]
    rfl
  · rfl

section
variable {env : Env} {s : SparseFile} {crc : Bool}

/-- The length of a file whose blocks can be read. -/
theorem sparseFileLen_eq (hbs : s.blockSize.toNat < 2 ^ 31) {ws : List (List UInt8)}
    (hws : streamWrites env s.blockSize s.blocks 0 = some ws) (htail : 0 ≤ s.tailLen) :
    sparseFileLen env s true crc
      = .ok (28 + counted ws + tailCost s + if crc then 16 else 0) := by
  obtain ⟨all, hall⟩ : ∃ all, sparseWrites env s crc = some all :=
    ⟨_, by rw [sparseWrites, hws, Option.map_some]⟩
  unfold sparseFileLen
  rw [writeSparseFile_sparse_eq hbs htail hall (accepts_counterOps _), feed_counterOps]
  rw [sparseWrites, hws, Option.map_some, Option.some.injEq] at hall
  rw [← hall]
  show Except.ok (if 0 < 0 then -1 else 0 + counted _) = _
  rw [counted_append, counted_append, counted_append, counted_tailWrites]
  have hheader : counted [(sparseHeaderOf s.blockSize s.len (sparseCountChunks s) crc).encode]
      = 28 := by
    unfold counted
    rw [map_singleton, SparseHeader.length_encode]
    rfl
  have hcrc : counted (if crc then crcWrites (streamCrc env s.blockSize s.blocks 0) else [])
      = if crc then 16 else 0 := by
    cases crc with
    | false => rfl
    | true =>
      have hword : ∀ v, toInt (le32 v).length = 4 := fun v => by
        rw [length_le32]
        rfl
      unfold counted crcWrites
      simp only [if_true, map_cons, hword]
      decide
  refine congrArg Except.ok ?_
  omega

/-- A block that cannot be read makes the loop over the blocks fail, on an output
that takes every buffer. -/
theorem writeBlocksLoop_of_none {σ : Type} {ops : OutputFileOps σ}
    (hacc : ∀ ws, Accepts ops ws) (blocks : List BackedBlock) {out : OutputFile σ}
    {lastBlock : UInt32} (hsp : out.sparseOps = true)
    (h : streamWrites env out.blockSize blocks lastBlock = none) :
    (writeBlocksLoop env ops out.blockSize blocks lastBlock out).1 < 0 := by
  induction blocks generalizing out lastBlock with
  | nil => simp [streamWrites] at h
  | cons bb rest ih =>
    rw [writeBlocksLoop]
    simp only [gap_eq hsp lastBlock bb (hacc _)]
    cases hwb : blockWrites env out.blockSize bb with
    | none =>
      obtain ⟨ret, hneg, hret⟩ := @sparseFileWriteBlock_of_none σ ops
        { out with
          sink := feed ops out.sink (gapWrites out.blockSize lastBlock bb)
          chunkCnt := out.chunkCnt + if lastBlock < bb.block then 1 else 0 } env bb hwb
      rw [hret]
      rw [if_pos (by omega)]
      exact hneg
    | some wb =>
      rw [sparseFileWriteBlock_eq (by exact hsp) (by exact hwb) (hacc wb)]
      have hrest : streamWrites env out.blockSize rest (blockEnd out.blockSize bb) = none := by
        by_contra hr
        obtain ⟨wr, hr⟩ := Option.ne_none_iff_exists'.mp hr
        simp [streamWrites, hwb, hr] at h
      exact @ih { out with
          sink := feed ops (feed ops out.sink (gapWrites out.blockSize lastBlock bb)) wb
          crc32 := if out.useCrc then blockCrc env out.blockSize bb out.crc32 else out.crc32
          chunkCnt := out.chunkCnt + (if lastBlock < bb.block then 1 else 0) + 1 }
        (blockEnd out.blockSize bb) hsp hrest

/-- The counter is opened, and stands behind the header. -/
theorem exists_counter (hbs : s.blockSize.toNat < 2 ^ 31) :
    ∃ out : OutputFile Int,
      outputFileInit counterOps 0 s.blockSize s.len true (sparseCountChunks s) crc = some out ∧
        out.sparseOps = true ∧ out.blockSize = s.blockSize := by
  unfold outputFileInit
  rw [if_neg (by omega)]
  exact ⟨_, rfl, rfl, rfl⟩

/-- A file whose blocks reach behind its end trips the assertion of
`write_all_blocks`. -/
theorem sparseFileLen_of_neg (hbs : s.blockSize.toNat < 2 ^ 31) {ws : List (List UInt8)}
    (hws : streamWrites env s.blockSize s.blocks 0 = some ws) (htail : s.tailLen < 0) :
    sparseFileLen env s true crc = .error .assertFailed := by
  obtain ⟨out, hout, hsp, hsize⟩ := @exists_counter s crc hbs
  have hloop := writeBlocksLoop_eq s.blocks out hsp (by rw [hsize]; exact hws)
    (accepts_counterOps ws)
  rw [hsize] at hloop
  unfold sparseFileLen writeSparseFile writeAllBlocks
  simp only [hout, hloop]
  rw [if_pos (show s.len - (streamEnd s.blockSize s.blocks 0).toNat * s.blockSize.toNat < 0
    from htail)]
  rfl

/-- A file that cannot be opened or read has length -1. -/
theorem sparseFileLen_failed (h : s.blockSize.toNat < 2 ^ 31 →
    streamWrites env s.blockSize s.blocks 0 = none) :
    sparseFileLen env s true crc = .ok (-1) := by
  unfold sparseFileLen writeSparseFile
  by_cases hbs : 2 ^ 31 ≤ s.blockSize.toNat
  · unfold outputFileInit
    rw [if_pos hbs]
    rfl
  obtain ⟨out, hout, hsp, hsize⟩ := @exists_counter s crc (by omega)
  have hneg := @writeBlocksLoop_of_none env Int counterOps accepts_counterOps s.blocks out 0
    hsp (by rw [hsize]; exact h (by omega))
  rw [hsize] at hneg
  unfold writeAllBlocks
  simp only [hout]
  generalize writeBlocksLoop env counterOps s.blockSize s.blocks 0 out = run at hneg
  simp [if_pos (show run.1 ≠ 0 by omega), bind, Except.bind, pure, Except.pure, if_pos hneg]

/-- `sparse_file_len` fails, or the blocks can be read. -/
theorem sparseFileLen_failed_or (env : Env) (s : SparseFile) (crc : Bool) :
    sparseFileLen env s true crc = .ok (-1) ∨ s.blockSize.toNat < 2 ^ 31 ∧
      ∃ ws, streamWrites env s.blockSize s.blocks 0 = some ws := by
  by_cases hfail : s.blockSize.toNat < 2 ^ 31 → streamWrites env s.blockSize s.blocks 0 = none
  · exact .inl (sparseFileLen_failed hfail)
  · obtain ⟨hbs, hsome⟩ := Classical.not_imp.mp hfail
    exact .inr ⟨hbs, Option.ne_none_iff_exists'.mp hsome⟩

/-- What `sparse_file_len` can return: -1, or the length. -/
theorem sparseFileLen_cases {n : Int} (hlen : sparseFileLen env s true crc = .ok n) :
    n = -1 ∨ s.blockSize.toNat < 2 ^ 31 ∧
      ∃ ws, streamWrites env s.blockSize s.blocks 0 = some ws ∧
        n = 28 + counted ws + tailCost s + if crc then 16 else 0 := by
  rcases sparseFileLen_failed_or env s crc with hfail | ⟨hbs, ws, hws⟩
  · rw [hfail, Except.ok.injEq] at hlen
    exact .inl hlen.symm
  · rcases Int.lt_or_le s.tailLen 0 with htail | htail
    · rw [sparseFileLen_of_neg hbs hws htail] at hlen
      cases hlen
    · rw [sparseFileLen_eq hbs hws htail, Except.ok.injEq] at hlen
      exact .inr ⟨hbs, ws, hws, hlen.symm⟩

/-- `sparse_file_len` returns on a file that does not reach behind its end. -/
theorem sparseFileLen_returns (htail : 0 ≤ s.tailLen) :
    ∃ n, sparseFileLen env s true crc = .ok n := by
  rcases sparseFileLen_failed_or env s crc with hfail | ⟨hbs, ws, hws⟩
  · exact ⟨_, hfail⟩
  · exact ⟨_, sparseFileLen_eq hbs hws htail⟩

end

/-! ### The part of a block that is moved -/

theorem toInt_le (n : Nat) (h : n < 2 ^ 32) : toInt n ≤ n := by
  unfold toInt
  rw [Int.bmod_def]
  split <;> omega

theorem toInt_add_toInt_sub {n : Nat} (h : 2 ^ 31 < n) (h' : n < 2 ^ 32) :
    toInt n + toInt (2 ^ 32 - n) = 0 := by
  have hneg : toInt n = n - 2 ^ 32 := by
    unfold toInt
    rw [Int.bmod_def]
    split <;> omega
  rw [hneg, toInt_eq_of_lt (by omega)]
  omega

section
variable {env : Env} {blockSize : UInt32} (hbs : 0 < blockSize.toNat)
include hbs

omit hbs in
/-- The zeroes behind the data count as their length. -/
theorem counted_padding_le (pad : UInt32) :
    counted (if pad ≠ 0 then [zeros pad.toNat] else []) ≤ toInt pad.toNat := by
  by_cases hpad : pad = 0
  · rw [if_neg (not_not.mpr hpad), hpad, UInt32.toNat_zero, toInt_eq_of_lt (by omega)]
    simp only [counted, map_nil, sum_nil, Int.natCast_zero, Int.le_refl]
  · rw [if_pos hpad]
    unfold counted
    rw [map_singleton, sum_singleton, length_zeros]

omit hbs in
theorem counted_rawWrites_le_add {len : UInt32} {data : List UInt8}
    (hdata : data.length = len.toNat) :
    counted (rawWrites blockSize len data)
      ≤ 12 + toInt len.toNat + toInt (align len blockSize - len).toNat := by
  have hpad := counted_padding_le (align len blockSize - len)
  have hhead : counted [(dataChunkHeader blockSize len).encode, data]
      = 12 + toInt len.toNat := by
    unfold counted
    rw [map_cons, map_singleton, sum_cons, sum_singleton, toInt_chunkHeader, hdata]
    rfl
  unfold rawWrites
  rw [counted_append, hhead]
  omega

variable {bb : BackedBlock}

/-- A raw chunk of at most `q` blocks counts at most `q` blocks and its header,
also where its rounded length wraps. -/
theorem counted_rawWrites_le (hbs31 : blockSize.toNat < 2 ^ 31) {data : List UInt8}
    (hdata : data.length = bb.len.toNat) {q : Nat} (hle : bb.len.toNat ≤ q * blockSize.toNat) :
    counted (rawWrites blockSize bb.len data) ≤ 12 + (q * blockSize.toNat : Nat) := by
  have hsum := @counted_rawWrites_le_add blockSize _ _ hdata
  have hlen := bb.len.toNat_lt
  by_cases hfits : Fits blockSize bb
  · have hpad := toNat_zeroLen_of_fits hbs hfits
    have hnum := (numBlocks_le_iff hbs bb q).mpr hle
    have hmul := Nat.mul_le_mul_right blockSize.toNat hnum
    have h₁ := toInt_le _ hlen
    have h₂ := toInt_le _ (align bb.len blockSize - bb.len).toNat_lt
    omega
  · -- The rounded length is zero, so the padding takes the length back.
    have halign : align bb.len blockSize = 0 := by
      unfold align
      rw [divRoundUp_of_not_fits hbs hfits, mul_zero]
    have hlarge : 2 ^ 31 < bb.len.toNat := by
      unfold Fits at hfits
      omega
    have hpad : (align bb.len blockSize - bb.len).toNat = 2 ^ 32 - bb.len.toNat := by
      rw [halign, UInt32.toNat_sub, UInt32.toNat_zero]
      exact Nat.mod_eq_of_lt (Nat.sub_lt (by omega) (by omega))
    have := toInt_add_toInt_sub hlarge hlen
    rw [hpad] at hsum
    omega

omit hbs in
/-- The first part of a cut has the place and the source of the block, and at most
as many whole blocks as asked for. -/
theorem splitNode_head {c : BackedBlock} {rest : List BackedBlock} {maxLen : UInt32}
    (h : splitNode blockSize bb maxLen = c :: rest) :
    c.block = bb.block ∧ c.type = bb.type ∧
      c.len.toNat ≤ maxLen.toNat / blockSize.toNat * blockSize.toNat := by
  have halign : (alignDown maxLen blockSize).toNat
      = maxLen.toNat / blockSize.toNat * blockSize.toNat := by
    rw [toNat_alignDown, Nat.mul_comm]
  unfold splitNode at h
  simp only at h
  split at h
  · rename_i hle
    obtain ⟨rfl, _⟩ := cons.inj h
    exact ⟨rfl, rfl, by rw [← halign]; exact le_iff_toNat_le.mp hle⟩
  · obtain ⟨rfl, _⟩ := cons.inj h
    exact ⟨rfl, rfl, by rw [← halign]⟩

/-- The first part of a cut counts no more than the room it was cut for. -/
theorem counted_cut_le (hbs31 : blockSize.toNat < 2 ^ 31) {c : BackedBlock}
    {rest : List BackedBlock} {room : Int} (hroom : 4 ≤ room)
    (hcut : splitNode blockSize bb (UInt32.ofInt room) = c :: rest) {wc : List (List UInt8)}
    (hwc : blockWrites env blockSize c = some wc) : counted wc ≤ 12 + room := by
  obtain ⟨_, _, hlen⟩ := splitNode_head hcut
  have hto : ((ofInt room).toNat) ≤ room := by
    rw [toNat_ofInt]
    omega
  have hdown := Nat.div_mul_le_self (ofInt room).toNat blockSize.toNat
  unfold blockWrites at hwc
  split at hwc
  · rw [← Option.some.inj hwc]
    unfold fillWrites counted
    simp only [map_cons, map_nil, sum_cons, sum_nil, toInt_chunkHeader,
      length_le32, chunkHeaderLen, toInt_eq_of_lt (show 4 < 2 ^ 31 by decide)]
    omega
  · obtain ⟨data, hdata, rfl⟩ := Option.map_eq_some_iff.mp hwc
    have := counted_rawWrites_le hbs hbs31 (length_source hdata) hlen
    omega

end

/-! ### One piece -/

section
variable {env : Env} {blockSize : UInt32}

/-- One more block behind `front`. -/
theorem streamWrites_concat (front : List BackedBlock) (bb : BackedBlock) :
    ∀ lastBlock, streamWrites env blockSize (front ++ [bb]) lastBlock
      = (streamWrites env blockSize front lastBlock).bind fun ws =>
          (blockWrites env blockSize bb).map fun wb =>
            ws ++ (gapWrites blockSize (streamEnd blockSize front lastBlock) bb ++ wb) := by
  induction front with
  | nil =>
    intro lastBlock
    simp only [nil_append, streamWrites, streamEnd]
    cases blockWrites env blockSize bb with
    | none => rfl
    | some wb => simp
  | cons b front ih =>
    simp only [cons_append, streamWrites, streamEnd, ih]
    cases blockWrites env blockSize b <;>
      cases streamWrites env blockSize front (blockEnd blockSize b) <;>
      cases blockWrites env blockSize bb <;> simp

theorem streamEnd_concat (front : List BackedBlock) (bb : BackedBlock) :
    ∀ lastBlock, streamEnd blockSize (front ++ [bb]) lastBlock = blockEnd blockSize bb := by
  induction front with
  | nil => intro lastBlock; rfl
  | cons b front ih => intro lastBlock; exact ih _

/-- A scan does not come past a block that does not fit. -/
theorem PrefixesFit.length_le {len : UInt32} {front back front' back' : List BackedBlock}
    {bb : BackedBlock} (hsplit : front ++ bb :: back = front' ++ back')
    (hstop : ∀ ws, streamWrites env blockSize (front ++ [bb]) 0 = some ws →
      len.toNat < counted ws)
    (hfit : PrefixesFit env blockSize len 0 0 front') : front'.length ≤ front.length := by
  by_contra hlt
  have hwhole : front ++ [bb] <+: front' ++ back' := ⟨back, by simp [← hsplit]⟩
  have hpre : front ++ [bb] <+: front' :=
    prefix_of_prefix_length_le hwhole (prefix_append _ _) (by
      rw [length_append, length_singleton]
      omega)
  obtain ⟨ws, hws, hle⟩ := hfit _ hpre
  have := hstop ws hws
  omega

end

/-- The file `st` is cut so that the piece is too long, once a crc chunk is added:
behind `front` and a hole, the block `bb` is cut. The part `c` that is moved takes
more than what the skip chunk in front of it leaves, and the image goes on behind
`c`, with whole blocks. -/
inductive CutOverflows (env : Env) (maxLen : UInt32) (st : SparseFile) : Prop where
  | intro (front : List BackedBlock) (bb : BackedBlock) (back : List BackedBlock)
      (ws wb : List (List UInt8)) (c : BackedBlock) (rest : List BackedBlock)
      (wc : List (List UInt8)) (hfull : FullAt env st maxLen front bb back ws wb)
      (hroom : front = [] ∨ (roomFor maxLen / 8).toNat < roomLeft maxLen ws)
      (hcut : splitNode st.blockSize bb (UInt32.ofInt (roomLeft maxLen ws)) = c :: rest)
      (hhole : streamEnd st.blockSize front 0 < bb.block)
      (hwc : blockWrites env st.blockSize c = some wc)
      (hskip : (roomFor maxLen).toNat < counted ws + chunkHeaderLen + counted wc)
      (htail : 0 < st.len - (blockEnd st.blockSize c).toNat * st.blockSize.toNat)
      (hwhole : (st.len - (blockEnd st.blockSize c).toNat * st.blockSize.toNat).tmod
        st.blockSize.toNat = 0)

section
variable {env : Env} {st p : SparseFile} {maxLen : UInt32} {crc : Bool}

theorem tailCost_le (s : SparseFile) : tailCost s ≤ 12 := by
  unfold tailCost
  split <;> omega

/-- A piece whose blocks take no more than the room is short enough. -/
theorem le_maxLen_of_counted_le (hroom : (roomFor maxLen).toNat + 56 = maxLen.toNat) {n : Int}
    (hlen : sparseFileLen env p true crc = .ok n)
    (hfit : ∀ ws, streamWrites env p.blockSize p.blocks 0 = some ws →
      counted ws ≤ (roomFor maxLen).toNat) : n ≤ maxLen.toNat := by
  rcases sparseFileLen_cases hlen with rfl | ⟨_, ws, hws, rfl⟩
  · omega
  · have := hfit ws hws
    have := tailCost_le p
    split <;> omega

variable {front : List BackedBlock} {ws : List (List UInt8)}

/-- There is room for a fill word behind the blocks a cut follows. -/
theorem four_le_roomLeft (hmax : minMaxLen st.blockSize ≤ maxLen.toNat)
    (hbs : 0 < st.blockSize.toNat) (hws : streamWrites env st.blockSize front 0 = some ws)
    (hroom : front = [] ∨ (roomFor maxLen / 8).toNat < roomLeft maxLen ws) :
    4 ≤ roomLeft maxLen ws := by
  have hlen := roomFor_of_minMaxLen hmax
  rcases hroom with rfl | hroom
  · obtain rfl : [] = ws := Option.some.inj hws
    unfold roomLeft counted chunkHeaderLen
    rw [map_nil, sum_nil]
    omega
  · rw [UInt32.toNat_div, show (8 : UInt32).toNat = 8 from rfl] at hroom
    omega

variable {rest : List BackedBlock} {bb c : BackedBlock}

/-- What a cut piece takes. -/
theorem cut_counted (hp : p.blockSize = st.blockSize) {wc : List (List UInt8)} {len : UInt32}
    (hblocks : p.blocks = front ++ [c]) (hws : streamWrites env st.blockSize front 0 = some ws)
    (hcut : splitNode st.blockSize bb len = c :: rest)
    (hwc : blockWrites env st.blockSize c = some wc) :
    ∃ all, streamWrites env p.blockSize p.blocks 0 = some all ∧
      counted all = counted ws + counted wc +
        if streamEnd st.blockSize front 0 < bb.block then (chunkHeaderLen : Int) else 0 := by
  refine ⟨_, by rw [hp, hblocks, streamWrites_concat, hws, hwc]; rfl, ?_⟩
  rw [counted_append, counted_append, counted_gapWrites, (splitNode_head hcut).1]
  omega

theorem cut_tailLen (hp : SameShape p st) (hblocks : p.blocks = front ++ [c]) :
    p.tailLen = st.len - (blockEnd st.blockSize c).toNat * st.blockSize.toNat := by
  unfold SparseFile.tailLen
  rw [hp.1, hp.2, hblocks, streamEnd_concat]

variable {r : Option BackedBlock}

/-- A piece that is too long comes from a cut that overflows. -/
theorem MoveCases.overflows (h : MoveCases env st maxLen p.blocks rest r) (hp : SameShape p st)
    (hmax : minMaxLen st.blockSize ≤ maxLen.toNat) (hbs : 0 < st.blockSize.toNat) {n : Int}
    (hlen : sparseFileLen env p true crc = .ok n) (hlong : maxLen.toNat < n) :
    crc = true ∧ CutOverflows env maxLen st := by
  have hlenNat := roomFor_of_minMaxLen hmax
  -- whole blocks take no more than the room
  have hshort : ∀ {front : List BackedBlock}, p.blocks = front →
      PrefixesFit env st.blockSize (roomFor maxLen) 0 0 front →
      crc = true ∧ CutOverflows env maxLen st := by
    intro front hblocks hfit
    have : n ≤ maxLen.toNat := le_maxLen_of_counted_le hlenNat.2 hlen fun ws hws => by
      obtain ⟨ws', hws', hle⟩ := hfit front (prefix_refl _)
      rw [hp.1, hblocks, hws', Option.some.injEq] at hws
      subst hws
      omega
    omega
  generalize hblocks : p.blocks = moved at h
  cases h with
  | nothing _ => exact hshort hblocks (.nil (by omega))
  | all _ hfit => exact hshort hblocks hfit
  | stop front bb back ws wb hfull _ _ => exact hshort hblocks hfull.front_fits
  | cut front bb back ws wb c rest hfull hroom hcut =>
    have hws := hfull.front_writes
    rcases sparseFileLen_cases hlen with rfl | ⟨_, all, hall, rfl⟩
    · omega
    · cases hwc : blockWrites env st.blockSize c with
      | none =>
        rw [hp.1, hblocks, streamWrites_concat, hwc] at hall
        exact absurd hall (by simp)
      | some wc =>
        obtain ⟨all', hall', hcount⟩ := cut_counted hp.1 hblocks hws hcut hwc
        obtain rfl := Option.some.inj (hall.symm.trans hall')
        have hle := counted_cut_le hbs hfull.blockSize_lt (four_le_roomLeft hmax hbs hws hroom)
          hcut hwc
        unfold roomLeft at hle
        have hch : chunkHeaderLen = 12 := rfl
        have htail := cut_tailLen hp hblocks
        -- The overhead has room for two of the three: all of them are there.
        unfold tailCost at hlong
        rw [hcount, htail, hp.1] at hlong
        split_ifs at hlong with hgap htc hcrc
        · exact ⟨hcrc, front, bb, back, ws, wb, c, rest, wc, hfull, hroom, hcut, hgap, hwc,
            by omega, htc.1, htc.2⟩
        all_goals omega

variable {wb : List (List UInt8)} {back : List BackedBlock}

theorem FullAt.over_concat (h : FullAt env st maxLen front bb back ws wb) :
    ∀ all, streamWrites env st.blockSize (front ++ [bb]) 0 = some all →
      (roomFor maxLen).toNat < counted all := by
  intro all hall
  rw [streamWrites_concat, h.front_writes, h.block_writes] at hall
  rw [← Option.some.inj hall, counted_append]
  exact h.overflows

/-- The scan stops at one block only. -/
theorem FullAt.unique {front' back' : List BackedBlock} {bb' : BackedBlock}
    {ws' wb' : List (List UInt8)} (h : FullAt env st maxLen front bb back ws wb)
    (h' : FullAt env st maxLen front' bb' back' ws' wb') :
    front = front' ∧ bb = bb' ∧ ws = ws' := by
  have hsplit := h.split.symm.trans h'.split
  have h₁ := h'.front_fits.length_le hsplit h.over_concat
  have h₂ := h.front_fits.length_le hsplit.symm h'.over_concat
  obtain ⟨rfl, hcons⟩ := append_inj hsplit (by omega)
  exact ⟨rfl, (cons.inj hcons).1, Option.some.inj (h.front_writes.symm.trans h'.front_writes)⟩

/-- A file that is full at a block, with enough room left in front of it, is cut
there. -/
theorem MoveCases.eq_cut {moved : List BackedBlock} (hm : MoveCases env st maxLen moved rest r)
    (hfull : FullAt env st maxLen front bb back ws wb)
    (hroom : front = [] ∨ (roomFor maxLen / 8).toNat < roomLeft maxLen ws) {cs : List BackedBlock}
    (hcut : splitNode st.blockSize bb (UInt32.ofInt (roomLeft maxLen ws)) = c :: cs) :
    moved = front ++ [c] := by
  cases hm with
  | nothing h =>
    rcases h with h | ⟨front', bb', back', hsplit', hfit', hnone⟩
    · have := hfull.blockSize_lt
      omega
    · have hsplit := hfull.split.symm.trans hsplit'
      have h₁ := hfit'.length_le hsplit hfull.over_concat
      have h₂ := hfull.front_fits.length_le hsplit.symm (fun all hall => by
        rw [streamWrites_concat, hnone] at hall
        simp at hall)
      obtain ⟨rfl, hcons⟩ := append_inj hsplit (by omega)
      have hwb := hfull.block_writes
      rw [(cons.inj hcons).1, hnone] at hwb
      cases hwb
  | all _ hfit' =>
    have hlen := hfit'.length_le (hfull.split.symm.trans (append_nil _).symm)
      hfull.over_concat
    rw [hfull.split, length_append, length_cons] at hlen
    omega
  | stop front' bb' back' ws' wb' hfull' hfront' hroom' =>
    obtain ⟨rfl, rfl, rfl⟩ := hfull.unique hfull'
    rcases hroom with hnil | hroom
    · exact absurd hnil hfront'
    · omega
  | cut front' bb' back' ws' wb' c' rest' hfull' _ hcut' =>
    obtain ⟨rfl, rfl, rfl⟩ := hfull.unique hfull'
    rw [(cons.inj (hcut.symm.trans hcut')).1]

/-- A cut that overflows gives a piece that is too long. -/
theorem CutOverflows.exceeds (h : CutOverflows env maxLen st)
    (hm : MoveCases env st maxLen p.blocks rest r) (hp : SameShape p st)
    (hmax : minMaxLen st.blockSize ≤ maxLen.toNat) :
    ∃ n, sparseFileLen env p true true = .ok n ∧ maxLen.toNat < n := by
  obtain ⟨front, bb, back, ws, wb, c, rest, wc, hfull, hroom, hcut, hhole, hwc, hskip, htail,
    hwhole⟩ := h
  have hblocks := hm.eq_cut hfull hroom hcut
  obtain ⟨all, hall, hcount⟩ := cut_counted hp.1 hblocks hfull.front_writes hcut hwc
  rw [if_pos hhole] at hcount
  rw [← cut_tailLen hp hblocks] at htail hwhole
  refine ⟨_, sparseFileLen_eq (by rw [hp.1]; exact hfull.blockSize_lt) hall (by omega), ?_⟩
  have hlen := roomFor_of_minMaxLen hmax
  rw [tailCost, hp.1, if_pos rfl]
  omega

/-- The parts of a cut do not reach behind the block, also where the block number
of the second part wraps. -/
theorem splitNode_end_le {blockSize : UInt32} {b : BackedBlock} {len : UInt32}
    (hb : b ∈ splitNode blockSize bb len) :
    b.block.toNat * blockSize.toNat + b.len.toNat
      ≤ bb.block.toNat * blockSize.toNat + bb.len.toNat := by
  rcases splitNode_parts blockSize bb len with
    ⟨hone, _⟩ | ⟨m, second, _, hlt, htwo, hblock, _, hlen, _⟩
  · rw [hone, mem_singleton] at hb
    rw [hb]
  · rw [htwo, mem_cons, mem_singleton] at hb
    rcases hb with rfl | rfl
    · exact Nat.add_le_add_left hlt.le _
    · have hle : b.block.toNat ≤ bb.block.toNat + m.toNat / blockSize.toNat := by
        rw [hblock, UInt32.toNat_add]
        exact Nat.mod_le _ _
      have hmul := Nat.mul_le_mul_right blockSize.toNat hle
      have hdiv := Nat.div_mul_le_self m.toNat blockSize.toNat
      rw [Nat.add_mul] at hmul
      omega

/-- A move leaves every block inside the image. -/
theorem MoveCases.inside {moved : List BackedBlock} (h : MoveCases env st maxLen moved rest r)
    {bound : Int}
    (hin : ∀ bb ∈ st.blocks, bb.block.toNat * st.blockSize.toNat + bb.len.toNat ≤ bound) :
    ∀ bb ∈ moved ++ rest, bb.block.toNat * st.blockSize.toNat + bb.len.toNat ≤ bound := by
  cases h with
  | nothing _ => exact hin
  | all _ _ => rwa [append_nil]
  | stop front bb back ws wb hfull _ _ => rwa [← hfull.split]
  | cut front bb back ws wb c rest hfull _ hcut =>
    rw [hfull.split] at hin
    intro b hb
    have hparts : b ∈ front ∨ b ∈ splitNode st.blockSize bb (ofInt (roomLeft maxLen ws)) ∨
        b ∈ back := by
      rw [hcut]
      simpa [or_assoc] using hb
    rcases hparts with hb | hb | hb
    · exact hin b (by simp [hb])
    · have hbb := hin bb (by simp)
      have hle := splitNode_end_le hb
      omega
    · exact hin b (by simp [hb])

end

/-! ### Every piece -/

/-- The file that one iteration of `sparse_file_resparse` takes off `st`. -/
def pieceOf (env : Env) (maxLen : UInt32) (st : SparseFile) : SparseFile :=
  (moveChunksUpToLen env st (sparseFileNew st.blockSize st.len) maxLen).2.1

/-- The input file at the head of each iteration of `sparse_file_resparse`. -/
def resparseStates (env : Env) (maxLen : UInt32) : Nat → SparseFile → List SparseFile
  | 0, _ => []
  | fuel + 1, inS =>
    let (inS', _, bb) :=
      moveChunksUpToLen env inS (sparseFileNew inS.blockSize inS.len) maxLen
    inS :: if bb = none then [] else resparseStates env maxLen fuel inS'

section
variable {env : Env} {maxLen : UInt32} {outSCount : Int}

/-- What every iteration keeps holds in every state of the loop. -/
theorem resparseStates_induction {P : SparseFile → Prop}
    (hstep : ∀ st, P st →
      P (moveChunksUpToLen env st (sparseFileNew st.blockSize st.len) maxLen).1) (fuel : Nat)
    {inS : SparseFile} (hP : P inS) : ∀ st ∈ resparseStates env maxLen fuel inS, P st := by
  induction fuel generalizing inS with
  | zero => exact forall_mem_nil _
  | succ fuel ih =>
    intro st hst
    have hnext := hstep inS hP
    rw [resparseStates] at hst
    generalize moveChunksUpToLen env inS (sparseFileNew inS.blockSize inS.len) maxLen = m
      at hst hnext
    rcases mem_cons.mp hst with rfl | hst
    · exact hP
    · split at hst
      · exact absurd hst not_mem_nil
      · exact ih hnext st hst

/-- The entries the loop stores are the pieces of its states. -/
theorem outS_of_resparseLoop (fuel : Nat) {inS tmp : SparseFile} {outS : List SparseFile}
    {c : Nat} {inS' tmp' : SparseFile} {outS' : List SparseFile} {c' : Nat}
    (hrun : resparseLoop env maxLen outSCount fuel inS tmp outS c = some (inS', tmp', outS', c')) :
    outS' = outS ++
      ((resparseStates env maxLen fuel inS).take (outSCount - c).toNat).map
        (pieceOf env maxLen) := by
  induction fuel generalizing inS tmp outS c with
  | zero => simp [resparseLoop] at hrun
  | succ fuel ih =>
    rw [resparseLoop] at hrun
    rw [resparseStates]
    have hpiece : pieceOf env maxLen inS
        = (moveChunksUpToLen env inS (sparseFileNew inS.blockSize inS.len) maxLen).2.1 := rfl
    generalize moveChunksUpToLen env inS (sparseFileNew inS.blockSize inS.len) maxLen = m
      at hrun hpiece ⊢
    obtain ⟨inS₁, piece, r⟩ := m
    by_cases hc : c < outSCount
    · obtain ⟨k, hk⟩ : ∃ k, (outSCount - c).toNat = k + 1 :=
        ⟨(outSCount - c).toNat - 1, by omega⟩
      have hk' : (outSCount - (c + 1 : Nat)).toNat = k := by omega
      simp only [if_pos hc] at hrun
      rw [hk, take_succ_cons, map_cons, hpiece]
      cases r with
      | none =>
        simp only [Option.some.injEq, Prod.mk.injEq] at hrun
        simp [← hrun.2.2.1]
      | some bb =>
        have := ih hrun
        rw [hk'] at this
        simpa using this
    · have hzero : (outSCount - c).toNat = 0 := by omega
      simp only [if_neg hc] at hrun
      rw [hzero]
      cases r with
      | none =>
        simp only [Option.some.injEq, Prod.mk.injEq] at hrun
        simp [← hrun.2.2.1]
      | some bb =>
        have := ih hrun
        rw [show (outSCount - (c + 1 : Nat)).toNat = 0 by omega] at this
        simpa using this

/-- The bound on one piece. -/
theorem pieceOf_bounded_iff {st : SparseFile} (hbs : 0 < st.blockSize.toNat)
    (hmax : minMaxLen st.blockSize ≤ maxLen.toNat) (crc : Bool) :
    (∀ len, sparseFileLen env (pieceOf env maxLen st) true crc = .ok len → len ≤ maxLen.toNat) ↔
      ¬ (crc = true ∧ CutOverflows env maxLen st) := by
  obtain ⟨_, hshape, hcases⟩ := moveChunksUpToLen_cases env st maxLen
  constructor
  · rintro hle ⟨rfl, hover⟩
    obtain ⟨len, hlen, hlong⟩ := hover.exceeds hcases hshape hmax
    have := hle len hlen
    omega
  · intro hno len hlen
    by_contra hlong
    exact hno (hcases.overflows hshape hmax hbs hlen (by omega))

/-- A file of the same shape, with its blocks inside. -/
theorem SparseFile.Inside.of_sameShape {st p : SparseFile} (h : st.Inside) (hp : SameShape p st)
    (hin : ∀ bb ∈ p.blocks, bb.block.toNat * st.blockSize.toNat + bb.len.toNat ≤ st.len) :
    p.Inside := by
  refine ⟨by rw [hp.1]; exact h.blockSize_pos, by rw [hp.1, hp.2]; exact h.len_eq, ?_⟩
  rw [hp.1, hp.2]
  exact hin

/-- `sparse_file_len` returns on the pieces of a file with every block inside. -/
theorem pieceOf_returns {st : SparseFile} (h : st.Inside) (crc : Bool) :
    ∃ len, sparseFileLen env (pieceOf env maxLen st) true crc = .ok len := by
  obtain ⟨_, hshape, hcases⟩ := moveChunksUpToLen_cases env st maxLen
  exact sparseFileLen_returns (h.of_sameShape hshape fun bb hbb =>
    hcases.inside h.inside bb (mem_append_left _ hbb)).tailLen_nonneg

/-- Every state of the loop has the shape of the file it starts with. -/
theorem resparseStates_shape {s : SparseFile} {fuel : Nat} :
    ∀ st ∈ resparseStates env maxLen fuel s, SameShape st s := by
  refine resparseStates_induction (fun st h => ?_) fuel ⟨rfl, rfl⟩
  exact (moveChunksUpToLen_cases env st maxLen).1.trans h

theorem resparseStates_inside {s : SparseFile} (hs : s.Inside) {fuel : Nat} :
    ∀ st ∈ resparseStates env maxLen fuel s, st.Inside := by
  refine resparseStates_induction (fun st h => ?_) fuel hs
  obtain ⟨hshape, _, hcases⟩ := moveChunksUpToLen_cases env st maxLen
  exact h.of_sameShape hshape fun bb hbb => hcases.inside h.inside bb (mem_append_right _ hbb)

end

/-! ### Main result -/

/-- The pieces of a resparse and their lengths. Take a sparse file with blocks in
order, none of them empty, and a `max_len` with room for the headers and one block.
`sparse_file_resparse` ends, and every piece it stores is at most `max_len` bytes
long, exactly when no crc chunk is asked for or no stored piece comes from a state
in which the cut overflows. The lengths can be taken if the file is valid. -/
theorem resparse_bounded_iff (env : Env) (s : SparseFile) (hs : s.Ordered) (maxLen : UInt32)
    (hmax : sparseHeaderLen + 4 * chunkHeaderLen + 4 + s.blockSize.toNat ≤ maxLen.toNat)
    (outSCount : Int) (crc : Bool) :
    ∃ n, ∀ fuel ≥ n, ∃ r, sparseFileResparse env fuel s maxLen outSCount = some r ∧
      ((∀ p ∈ r.outS, ∀ len, sparseFileLen env p true crc = .ok len → len ≤ maxLen.toNat) ↔
        ¬ (crc = true ∧ ∃ st ∈ (resparseStates env maxLen fuel s).take outSCount.toNat,
          CutOverflows env maxLen st)) ∧
      (s.Valid → ∀ p ∈ r.outS, ∃ len, sparseFileLen env p true crc = .ok len) := by
  refine ⟨totalLen s.blocks + 1, fun fuel hfuel => ?_⟩
  obtain ⟨⟨inS, tmp, outS, c⟩, hrun⟩ := @resparseLoop_returns env maxLen outSCount s
    (sparseFileNew s.blockSize s.len) [] 0 fuel hs.blockSize_pos
    (fun _ => blockSize_le_roomLeft hmax) hs.nonempty (by omega)
  have houtS := outS_of_resparseLoop fuel hrun
  rw [nil_append, Nat.cast_zero, sub_zero] at houtS
  refine ⟨_, by rw [sparseFileResparse, hrun]; rfl, ?_, fun hvalid => ?_⟩
  · simp only [houtS, forall_mem_map]
    have hone : ∀ st ∈ (resparseStates env maxLen fuel s).take outSCount.toNat,
        ((∀ len, sparseFileLen env (pieceOf env maxLen st) true crc = .ok len →
          len ≤ maxLen.toNat) ↔ ¬ (crc = true ∧ CutOverflows env maxLen st)) := by
      intro st hst
      have hshape := resparseStates_shape st (mem_of_mem_take hst)
      exact pieceOf_bounded_iff (by rw [hshape.1]; exact hs.blockSize_pos)
        (by rw [hshape.1]; exact hmax) crc
    constructor
    · rintro hall ⟨hcrc, st, hst, hover⟩
      exact (hone st hst).mp (hall st hst) ⟨hcrc, hover⟩
    · intro hno st hst
      exact (hone st hst).mpr fun h => hno ⟨h.1, st, hst, h.2⟩
  · simp only [houtS, forall_mem_map]
    exact fun st hst => pieceOf_returns
      (resparseStates_inside hvalid.toInside st (mem_of_mem_take hst)) crc

theorem resparse_bounded_twentyByteFile :
    ∃ n, ∀ fuel ≥ n, ∃ r, sparseFileResparse Env.blank fuel twentyByteFile 84 2 = some r ∧
      ((∀ p ∈ r.outS, ∀ len, sparseFileLen Env.blank p true true = .ok len → len ≤ 84) ↔
        ¬ (true = true ∧ ∃ st ∈ (resparseStates Env.blank 84 fuel twentyByteFile).take 2,
          CutOverflows Env.blank 84 st)) ∧
      (twentyByteFile.Valid → ∀ p ∈ r.outS,
        ∃ len, sparseFileLen Env.blank p true true = .ok len) :=
  resparse_bounded_iff Env.blank twentyByteFile ⟨by decide, by decide, by decide⟩ 84 (by decide)
    2 true

/-- The first 16 bytes of the block fill the room for 84 bytes. With the skip chunks
on both sides and the crc chunk, the piece has 96. -/
theorem twentyByteFile_piece_too_long :
    twentyByteFile.Valid ∧
      sparseHeaderLen + 4 * chunkHeaderLen + 4 + twentyByteFile.blockSize.toNat ≤ 84 ∧
      ∃ r, sparseFileResparse Env.blank 3 twentyByteFile 84 2 = some r ∧
        ∃ p ∈ r.outS, sparseFileLen Env.blank p true true = .ok 96 := by
  refine ⟨⟨⟨by decide, by decide, by decide⟩, ⟨6, by decide⟩, by decide⟩, by decide, _, rfl, ?_⟩
  decide +kernel

end AndroidCore.Libsparse
