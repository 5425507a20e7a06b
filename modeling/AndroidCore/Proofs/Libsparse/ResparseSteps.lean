import AndroidCore.Proofs.Libsparse.Chunks

/-!
# `AndroidCore.Proofs.Libsparse.ResparseSteps`: one piece of a resparse

`move_chunks_up_to_len` walks over the blocks of a file, counts what each would
take in a sparse image, and moves the front of the list, with the last block
possibly cut. `MoveCases` lists the ways a call can end, and
`moveChunksUpToLen_cases` says that there is no other. Both what the pieces hold
and how long they are follow from it.
-/

namespace AndroidCore.Libsparse

open List UInt32

/-! ### Counting -/

/-- What a counter adds up for a sequence of buffers. -/
def counted (ws : List (List UInt8)) : Int := (ws.map fun d => toInt d.length).sum

theorem counted_append (ws ws' : List (List UInt8)) :
    counted (ws ++ ws') = counted ws + counted ws' := by
  unfold counted
  rw [map_append, sum_append]

theorem toInt_chunkHeader (h : ChunkHeader) : toInt h.encode.length = chunkHeaderLen := by
  rw [ChunkHeader.length_encode]
  rfl

/-- A skip chunk in front of a block counts as its header. -/
theorem counted_gapWrites (blockSize lastBlock : UInt32) (bb : BackedBlock) :
    counted (gapWrites blockSize lastBlock bb)
      = if lastBlock < bb.block then (chunkHeaderLen : Int) else 0 := by
  unfold gapWrites counted
  split
  · rw [map_singleton, sum_singleton, toInt_chunkHeader]
  · rfl

/-- `len` after the overhead is taken off. -/
def roomFor (maxLen : UInt32) : UInt32 := maxLen - UInt32.ofNat resparseOverhead

theorem toNat_roomFor {maxLen : UInt32} (h : resparseOverhead ≤ maxLen.toNat) :
    (roomFor maxLen).toNat = maxLen.toNat - resparseOverhead := by
  unfold roomFor
  rw [UInt32.toNat_sub_of_le]
  · rfl
  · exact h

/-! ### The scan -/

/-- The position of the last block that fits, behind the blocks `front`. -/
def lastFit (pos : Nat) (lastBb : Option Nat) (front : List BackedBlock) : Option Nat :=
  if front = [] then lastBb else some (pos + front.length - 1)

theorem lastFit_cons (pos : Nat) (lastBb : Option Nat) (bb : BackedBlock)
    (front : List BackedBlock) :
    lastFit (pos + 1) (some pos) front = lastFit pos lastBb (bb :: front) := by
  unfold lastFit
  cases front with
  | nil => rfl
  | cons b front =>
    rw [if_neg (by simp), if_neg (by simp)]
    simp only [length_cons, Option.some.injEq]
    omega

section
variable {env : Env} {blockSize len : UInt32} {bb : BackedBlock}

/-- One iteration of the scan on a block that can be read. -/
theorem moveChunksLoop_cons {rest : List BackedBlock} {ws : List (List UInt8)}
    (hws : blockWrites env blockSize bb = some ws) (pos : Nat) (lastBlock : UInt32) (fileLen : Int)
    (lastBb : Option Nat) {out : OutputFile Int} (hsp : out.sparseOps = true)
    (hbs : out.blockSize = blockSize) :
    ∃ out' : OutputFile Int, out'.sparseOps = true ∧ out'.blockSize = blockSize ∧
      moveChunksLoop env blockSize len (bb :: rest) pos lastBlock fileLen lastBb out
        = if len.toNat < fileLen + counted (gapWrites blockSize lastBlock bb ++ ws) then
            .full pos bb fileLen lastBb
          else
            moveChunksLoop env blockSize len rest (pos + 1) (blockEnd blockSize bb)
              (fileLen + counted (gapWrites blockSize lastBlock bb ++ ws)) (some pos) out' := by
  have hwrite := fun count => @sparseFileWriteBlock_eq Int counterOps ws
    { out with sink := count } env bb hsp (by rw [← hws, ← hbs]) (accepts_counterOps ws)
  rw [moveChunksLoop]
  simp only [hwrite, feed_counterOps, counted_append, counted_gapWrites]
  exact ⟨_, by exact hsp, by exact hbs, rfl⟩

/-- A block that cannot be read ends the scan. -/
theorem moveChunksLoop_of_none {rest : List BackedBlock} (hws : blockWrites env blockSize bb = none)
    (pos : Nat) (lastBlock : UInt32) (fileLen : Int) (lastBb : Option Nat) {out : OutputFile Int}
    (hbs : out.blockSize = blockSize) :
    moveChunksLoop env blockSize len (bb :: rest) pos lastBlock fileLen lastBb out = .failed := by
  obtain ⟨ret, hneg, hret⟩ := @sparseFileWriteBlock_of_none Int counterOps
    { out with sink := if lastBlock < bb.block then chunkHeaderLen else 0 } env bb
    (show blockWrites env out.blockSize bb = none by rw [hbs, hws])
  rw [moveChunksLoop]
  simp only [hret]
  rw [if_pos (by omega)]

/-- Every front part of `front` can be read and fits, behind `fileLen` bytes. -/
def PrefixesFit (env : Env) (blockSize len lastBlock : UInt32) (fileLen : Int)
    (front : List BackedBlock) : Prop :=
  ∀ pre, pre <+: front → ∃ ws, streamWrites env blockSize pre lastBlock = some ws ∧
    fileLen + counted ws ≤ len.toNat

theorem PrefixesFit.nil {lastBlock : UInt32} {fileLen : Int} (h : fileLen ≤ len.toNat) :
    PrefixesFit env blockSize len lastBlock fileLen [] := by
  intro pre hpre
  rw [prefix_nil.mp hpre]
  exact ⟨[], rfl, by simpa [counted] using h⟩

theorem PrefixesFit.cons {lastBlock : UInt32} {fileLen : Int} (h : fileLen ≤ len.toNat)
    {wb : List (List UInt8)} (hwb : blockWrites env blockSize bb = some wb)
    {front : List BackedBlock} (hrest : PrefixesFit env blockSize len (blockEnd blockSize bb)
      (fileLen + counted (gapWrites blockSize lastBlock bb ++ wb)) front) :
    PrefixesFit env blockSize len lastBlock fileLen (bb :: front) := by
  intro pre hpre
  rcases prefix_cons_iff.mp hpre with rfl | ⟨pre', rfl, hpre'⟩
  · exact PrefixesFit.nil h [] (prefix_refl _)
  · obtain ⟨ws, hws, hfit⟩ := hrest pre' hpre'
    refine ⟨gapWrites blockSize lastBlock bb ++ wb ++ ws, ?_, ?_⟩
    · simp [streamWrites, hwb, hws]
    · rw [counted_append]
      omega

/-- How the scan ends. -/
theorem moveChunksLoop_cases (blocks : List BackedBlock) :
    ∀ (pos : Nat) (lastBlock : UInt32) (fileLen : Int) (lastBb : Option Nat)
      {out : OutputFile Int}, out.sparseOps = true → out.blockSize = blockSize →
      fileLen ≤ len.toNat →
      let run := moveChunksLoop env blockSize len blocks pos lastBlock fileLen lastBb out
      (run = .failed ∧ ∃ front bb back, blocks = front ++ bb :: back ∧
        PrefixesFit env blockSize len lastBlock fileLen front ∧
        blockWrites env blockSize bb = none) ∨
      (PrefixesFit env blockSize len lastBlock fileLen blocks ∧
        run = .exhausted (lastFit pos lastBb blocks)) ∨
      ∃ front bb back ws wb, blocks = front ++ bb :: back ∧
        streamWrites env blockSize front lastBlock = some ws ∧
        PrefixesFit env blockSize len lastBlock fileLen front ∧
        blockWrites env blockSize bb = some wb ∧
        len.toNat < fileLen + counted ws +
          counted (gapWrites blockSize (streamEnd blockSize front lastBlock) bb ++ wb) ∧
        run = .full (pos + front.length) bb (fileLen + counted ws) (lastFit pos lastBb front) := by
  induction blocks with
  | nil =>
    intro pos lastBlock fileLen lastBb out _ _ hle
    exact .inr (.inl ⟨.nil hle, rfl⟩)
  | cons bb rest ih =>
    intro pos lastBlock fileLen lastBb out hsp hbs hle
    cases hwb : blockWrites env blockSize bb with
    | none =>
      exact .inl ⟨moveChunksLoop_of_none hwb pos lastBlock fileLen lastBb hbs, [], bb, rest,
        rfl, .nil hle, hwb⟩
    | some wb =>
      obtain ⟨out', hsp', hbs', hrun⟩ := @moveChunksLoop_cons env blockSize len bb rest wb
        hwb pos lastBlock fileLen lastBb out hsp hbs
      rw [hrun]
      by_cases hfull : len.toNat
          < fileLen + counted (gapWrites blockSize lastBlock bb ++ wb)
      · -- The first block does not fit any more.
        rw [if_pos hfull]
        refine .inr (.inr ⟨[], bb, rest, [], wb, rfl, rfl, .nil hle, hwb, ?_, ?_⟩)
        · simpa [counted, streamEnd] using hfull
        · simp [counted, lastFit]
      · rw [if_neg hfull]
        rcases ih (pos + 1) (blockEnd blockSize bb)
          (fileLen + counted (gapWrites blockSize lastBlock bb ++ wb)) (some pos) hsp' hbs'
          (by omega) with ⟨hfail, front, b, back, rfl, hfit, hnone⟩ | ⟨hfit, hend⟩ |
          ⟨front, b, back, ws, wb', rfl, hws, hfit, hwb', hover, hend⟩
        · exact .inl ⟨hfail, bb :: front, b, back, rfl, .cons hle hwb hfit, hnone⟩
        · exact .inr (.inl ⟨.cons hle hwb hfit, by rw [hend, ← lastFit_cons]⟩)
        · refine .inr (.inr ⟨bb :: front, b, back,
            gapWrites blockSize lastBlock bb ++ wb ++ ws, wb', rfl, ?_, .cons hle hwb hfit,
            hwb', ?_, ?_⟩)
          · simp [streamWrites, hwb, hws]
          · rw [counted_append _ ws]
            rw [streamEnd]
            omega
          · rw [hend, ← lastFit_cons, counted_append _ ws, length_cons]
            congr 1 <;> omega

end

/-! ### The move -/

/-- The two parts of a block that is cut: `splitNode` gives the first part, and
the second one if there is one. -/
theorem splitNode_eq_cons (blockSize : UInt32) (bb : BackedBlock) (maxLen : UInt32) :
    ∃ c rest, splitNode blockSize bb maxLen = c :: rest := by
  unfold splitNode
  simp only
  split
  · exact ⟨_, _, rfl⟩
  · exact ⟨_, _, rfl⟩

/-- What is left to fill behind `ws`, once a chunk header is taken off. -/
def roomLeft (maxLen : UInt32) (ws : List (List UInt8)) : Int :=
  ((roomFor maxLen).toNat : Int) - (counted ws + chunkHeaderLen)

/-- The scan of `source` stops at the block `bb`: the blocks `front` in front of it
fit, and `bb` does not fit any more. -/
structure FullAt (env : Env) (source : SparseFile) (maxLen : UInt32)
    (front : List BackedBlock) (bb : BackedBlock) (back : List BackedBlock)
    (ws wb : List (List UInt8)) : Prop where
  blockSize_lt : source.blockSize.toNat < 2 ^ 31
  split : source.blocks = front ++ bb :: back
  front_writes : streamWrites env source.blockSize front 0 = some ws
  front_fits : PrefixesFit env source.blockSize (roomFor maxLen) 0 0 front
  block_writes : blockWrites env source.blockSize bb = some wb
  overflows : (roomFor maxLen).toNat < counted ws +
    counted (gapWrites source.blockSize (streamEnd source.blockSize front 0) bb ++ wb)

/-- The ways a call of `move_chunks_up_to_len` can end: the blocks it moves, the
blocks it leaves, and the block it returns. -/
inductive MoveCases (env : Env) (source : SparseFile) (maxLen : UInt32) :
    List BackedBlock → List BackedBlock → Option BackedBlock → Prop where
  /-- The counter cannot be opened, or a block cannot be read. -/
  | nothing (h : 2 ^ 31 ≤ source.blockSize.toNat ∨
        ∃ front bb back, source.blocks = front ++ bb :: back ∧
          PrefixesFit env source.blockSize (roomFor maxLen) 0 0 front ∧
          blockWrites env source.blockSize bb = none) :
      MoveCases env source maxLen [] source.blocks none
  /-- Everything fits. -/
  | all (hbs : source.blockSize.toNat < 2 ^ 31)
      (hfit : PrefixesFit env source.blockSize (roomFor maxLen) 0 0 source.blocks) :
      MoveCases env source maxLen source.blocks [] none
  /-- The block `bb` does not fit, and little is left to fill. -/
  | stop (front : List BackedBlock) (bb : BackedBlock) (back : List BackedBlock)
      (ws wb : List (List UInt8)) (hfull : FullAt env source maxLen front bb back ws wb)
      (hfront : front ≠ []) (hroom : roomLeft maxLen ws ≤ (roomFor maxLen / 8).toNat) :
      MoveCases env source maxLen front (bb :: back) (some bb)
  /-- The block `bb` does not fit, and is cut: `c` is moved, `rest` is left. -/
  | cut (front : List BackedBlock) (bb : BackedBlock) (back : List BackedBlock)
      (ws wb : List (List UInt8)) (c : BackedBlock) (rest : List BackedBlock)
      (hfull : FullAt env source maxLen front bb back ws wb)
      (hroom : front = [] ∨ (roomFor maxLen / 8).toNat < roomLeft maxLen ws)
      (hcut : splitNode source.blockSize bb (UInt32.ofInt (roomLeft maxLen ws)) = c :: rest) :
      MoveCases env source maxLen (front ++ [c]) (rest ++ back) (some bb)

/-- Two files describe images of the same size. -/
def SameShape (s t : SparseFile) : Prop := s.blockSize = t.blockSize ∧ s.len = t.len

theorem SameShape.trans {r s t : SparseFile} (h : SameShape r s) (h' : SameShape s t) :
    SameShape r t :=
  ⟨h.1.trans h'.1, h.2.trans h'.2⟩

theorem moveBlocks_shape (source dest : SparseFile) (start stop : Option Nat) :
    SameShape (source.moveBlocks dest start stop).1 source ∧
      SameShape (source.moveBlocks dest start stop).2 dest := by
  unfold SparseFile.moveBlocks backedBlockListMove
  simp only
  split
  · exact ⟨⟨rfl, rfl⟩, rfl, rfl⟩
  · exact ⟨⟨rfl, rfl⟩, rfl, rfl⟩

variable {front back : List BackedBlock}

/-- Moving the front of a list into an empty file. -/
theorem moveBlocks_front {source dest : SparseFile} (hdest : dest.blocks = [])
    (hsplit : source.blocks = front ++ back) {stop : Nat} (hstop : front.length = stop + 1) :
    (source.moveBlocks dest (some 0) (some stop)).1.blocks = back ∧
      (source.moveBlocks dest (some 0) (some stop)).2.blocks = front := by
  have hlist : source.backedBlockList.dataBlocks = front ++ back := hsplit
  have hdlist : dest.backedBlockList.dataBlocks = [] := hdest
  have htake : (front ++ back).take (stop + 1) = front := by
    rw [← hstop, take_left]
  have hdrop : (front ++ back).drop (stop + 1) = back := by
    rw [← hstop, drop_left]
  have hne : front ≠ [] := by
    intro h
    simp [h] at hstop
  obtain ⟨b, bs, rfl⟩ := exists_cons_of_ne_nil hne
  unfold SparseFile.moveBlocks backedBlockListMove
  simp only [Option.getD_some, hlist, htake, hdrop, hdlist]
  exact ⟨rfl, rfl⟩

/-- The list after the block at the end of `front` is cut. -/
theorem backedBlockSplit_at {bbl : BackedBlockList} {bb : BackedBlock}
    (hlist : bbl.dataBlocks = front ++ bb :: back) (maxLen : UInt32) :
    (backedBlockSplit bbl front.length maxLen).dataBlocks
        = front ++ splitNode bbl.blockSize bb maxLen ++ back ∧
      (backedBlockSplit bbl front.length maxLen).blockSize = bbl.blockSize := by
  have hget : bbl.dataBlocks[front.length]? = some bb := by
    rw [hlist, getElem?_append_right (Nat.le_refl _), Nat.sub_self]
    rfl
  have htake : bbl.dataBlocks.take front.length = front := by rw [hlist, take_left]
  have hdrop : bbl.dataBlocks.drop (front.length + 1) = back := by
    rw [hlist, ← drop_drop, drop_left]
    rfl
  unfold backedBlockSplit
  simp [hget, htake, hdrop]

section
variable {env : Env} {source dest : SparseFile} {maxLen : UInt32}

/-- What a move of blocks from `source` to an empty `dest` amounts to. -/
def MovesAs (env : Env) (source : SparseFile) (maxLen : UInt32)
    (result : SparseFile × SparseFile × Option BackedBlock) : Prop :=
  SameShape result.1 source ∧ SameShape result.2.1 source ∧
    MoveCases env source maxLen result.2.1.blocks result.1.blocks result.2.2

/-- The move behind a scan that reached the end of the list. -/
theorem movesAs_exhausted (hdest : dest.blocks = []) (hshape : SameShape dest source)
    (hbs : source.blockSize.toNat < 2 ^ 31)
    (hfit : PrefixesFit env source.blockSize (roomFor maxLen) 0 0 source.blocks) :
    let moved := source.moveBlocks dest (if source.blocks = [] then none else some 0)
      (lastFit 0 none source.blocks)
    MovesAs env source maxLen (moved.1, moved.2, none) := by
  intro moved
  have hblocks : moved.1.blocks = [] ∧ moved.2.blocks = source.blocks := by
    unfold moved lastFit
    by_cases hnil : source.blocks = []
    · -- There is nothing to move.
      have hlist : source.backedBlockList.dataBlocks = [] := hnil
      unfold SparseFile.moveBlocks backedBlockListMove
      simp only [hlist, take_nil, drop_nil]
      exact ⟨hnil, hdest.trans hnil.symm⟩
    · rw [if_neg hnil, if_neg hnil]
      have := length_pos_iff.mpr hnil
      exact moveBlocks_front hdest (append_nil _).symm (by omega)
  obtain ⟨hfrom, hto⟩ := moveBlocks_shape source dest
    (if source.blocks = [] then none else some 0) (lastFit 0 none source.blocks)
  refine ⟨hfrom, hto.trans hshape, ?_⟩
  rw [hblocks.1, hblocks.2]
  exact .all hbs hfit

/-- The move behind a scan that stopped at a block that does not fit. -/
theorem movesAs_full (hdest : dest.blocks = []) (hshape : SameShape dest source) {bb : BackedBlock}
    {ws wb : List (List UInt8)} (hfull : FullAt env source maxLen front bb back ws wb) :
    MovesAs env source maxLen
      (if lastFit 0 none front = none ∨ (roomFor maxLen / 8).toNat < roomLeft maxLen ws then
        let list := backedBlockSplit source.backedBlockList front.length
          (UInt32.ofInt (roomLeft maxLen ws))
        let moved := { source with backedBlockList := list }.moveBlocks dest (some 0)
          (some front.length)
        (moved.1, moved.2, some bb)
      else
        let moved := source.moveBlocks dest (some 0) (lastFit 0 none front)
        (moved.1, moved.2, some bb)) := by
  by_cases hcut : lastFit 0 none front = none ∨ (roomFor maxLen / 8).toNat < roomLeft maxLen ws
  · rw [if_pos hcut]
    obtain ⟨c, rest, hnode⟩ := splitNode_eq_cons source.blockSize bb
      (ofInt (roomLeft maxLen ws))
    obtain ⟨hlist, hsize⟩ := backedBlockSplit_at
      (show source.backedBlockList.dataBlocks = front ++ bb :: back from hfull.split)
      (ofInt (roomLeft maxLen ws))
    generalize backedBlockSplit source.backedBlockList front.length
      (ofInt (roomLeft maxLen ws)) = list at hlist hsize
    have hsrc : { source with backedBlockList := list }.blocks
        = (front ++ [c]) ++ (rest ++ back) := by
      show list.dataBlocks = _
      rw [hlist, show source.backedBlockList.blockSize = source.blockSize from rfl, hnode]
      simp
    obtain ⟨hrest, hmoved⟩ := moveBlocks_front hdest hsrc
      (show (front ++ [c]).length = front.length + 1 by simp)
    obtain ⟨hfrom, hto⟩ := moveBlocks_shape { source with backedBlockList := list } dest (some 0)
      (some front.length)
    refine ⟨⟨hfrom.1.trans hsize, hfrom.2⟩, hto.trans hshape, ?_⟩
    rw [hrest, hmoved]
    refine .cut front bb back ws wb c rest hfull (hcut.imp ?_ id) hnode
    intro hnone
    by_contra hne
    rw [lastFit, if_neg hne] at hnone
    cases hnone
  · rw [if_neg hcut]
    obtain ⟨hlast, hroom⟩ := not_or.mp hcut
    have hfront : front ≠ [] := fun hnil => hlast (if_pos hnil)
    have hpos := length_pos_iff.mpr hfront
    rw [show lastFit 0 none front = some (front.length - 1) by
      rw [lastFit, if_neg hfront, Nat.zero_add]]
    obtain ⟨hrest, hmoved⟩ := moveBlocks_front hdest hfull.split
      (show front.length = front.length - 1 + 1 by omega)
    obtain ⟨hfrom, hto⟩ := moveBlocks_shape source dest (some 0) (some (front.length - 1))
    refine ⟨hfrom, hto.trans hshape, ?_⟩
    rw [hrest, hmoved]
    exact .stop front bb back ws wb hfull hfront (by omega)

end

/-- One call of `move_chunks_up_to_len` into an empty file. -/
theorem moveChunksUpToLen_cases (env : Env) (source : SparseFile) (maxLen : UInt32) :
    MovesAs env source maxLen
      (moveChunksUpToLen env source (sparseFileNew source.blockSize source.len) maxLen) := by
  have hdest : (sparseFileNew source.blockSize source.len).blocks = [] := rfl
  have hshape : SameShape (sparseFileNew source.blockSize source.len) source := ⟨rfl, rfl⟩
  generalize sparseFileNew source.blockSize source.len = dest at hdest hshape
  have hnothing : (2 ^ 31 ≤ source.blockSize.toNat ∨
        ∃ front bb back, source.blocks = front ++ bb :: back ∧
          PrefixesFit env source.blockSize (roomFor maxLen) 0 0 front ∧
          blockWrites env source.blockSize bb = none) →
      MovesAs env source maxLen (source, dest, none) := by
    intro h
    refine ⟨⟨rfl, rfl⟩, hshape, ?_⟩
    rw [hdest]
    exact .nothing h
  unfold moveChunksUpToLen outputFileInit
  rw [show maxLen - ofNat resparseOverhead = roomFor maxLen from rfl, hshape.1]
  simp only [if_true, OutputFile.write_eq]
  by_cases hbs : 2 ^ 31 ≤ source.blockSize.toNat
  · rw [if_pos hbs]
    exact hnothing (.inl hbs)
  rw [if_neg hbs, if_neg (Int.not_lt.mpr (accepts_counterOps [_] _ (mem_singleton_self _) _))]
  simp only
  rcases @moveChunksLoop_cases env source.blockSize (roomFor maxLen) source.blocks 0 0 0 none
    { chunkCnt := 0, crc32 := 0, useCrc := false, blockSize := source.blockSize, len := dest.len,
      sparseOps := true,
      sink := feed counterOps 0 [(sparseHeaderOf source.blockSize dest.len 0 false).encode] }
    rfl rfl (by omega) with ⟨hrun, hfail⟩ | ⟨hfit, hrun⟩ |
      ⟨front, bb, back, ws, wb, hsplit, hws, hfit, hwb, hover, hrun⟩
  · rw [hrun]
    exact hnothing (.inr hfail)
  · rw [hrun]
    exact movesAs_exhausted hdest hshape (by omega) hfit
  · rw [hrun]
    simp only [Nat.zero_add, Int.zero_add] at hover ⊢
    rw [if_neg (show source.blocks ≠ [] by simp [hsplit])]
    exact movesAs_full hdest hshape ⟨by omega, hsplit, hws, hfit, hwb, hover⟩

end AndroidCore.Libsparse
