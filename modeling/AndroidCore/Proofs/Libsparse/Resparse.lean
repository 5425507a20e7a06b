import AndroidCore.Proofs.Libsparse.ResparseSteps
import Mathlib.Data.List.TakeWhile

/-!
# `AndroidCore.Proofs.Libsparse.Resparse`: the pieces of a resparse

`sparse_file_resparse` takes pieces off the front of a file until nothing is
left. What its three lists hold, taken together and in order, changes in one way
only: a block is cut in two. `Keeps` says that a list is in order and has the
image of the original, and `Keeps.split` that a cut keeps it so. The loop then
ends because every piece takes bytes off the file, and `resparse_partitions`
says what it leaves: the pieces and the remainder are the original, in order.
-/

namespace AndroidCore.Libsparse

open BackedBlock List Option UInt32

/-! ### Cutting a block inside a list -/

/-- A list in order, with the image of the list `orig` and block numbers of 32
bits. -/
structure Keeps (orig : List BackedBlock) (bs : Nat) (blocks : List BackedBlock) : Prop where
  ordered : blocks.Pairwise (Before bs)
  image : ∀ env j, imageOf env bs blocks j = imageOf env bs orig j
  ends : ∀ b ∈ blocks, b.endBlock bs ≤ 2 ^ 32

section
variable {blockSize : UInt32} (hbs : 0 < blockSize.toNat)
include hbs

/-- The halves of a block lie inside it, one behind the other. -/
theorem splitNode_inside {bb : BackedBlock} (hfit : bb.endBlock blockSize.toNat ≤ 2 ^ 32)
    (maxLen : UInt32) :
    (splitNode blockSize bb maxLen).Pairwise (Before blockSize.toNat) ∧
      ∀ b ∈ splitNode blockSize bb maxLen, bb.block.toNat ≤ b.block.toNat ∧
        b.block.toNat * blockSize.toNat + b.len.toNat
          ≤ bb.block.toNat * blockSize.toNat + bb.len.toNat := by
  rcases splitNode_cases hbs hfit maxLen with
    ⟨hone, _⟩ | ⟨m, q, second, _, hq, hlt, htwo, hblock, hlen, _, _⟩
  · rw [hone]
    exact ⟨pairwise_singleton _ _, by simp⟩
  · rw [htwo]
    have hmul : (bb.block.toNat + q) * blockSize.toNat
        = bb.block.toNat * blockSize.toNat + q * blockSize.toNat := Nat.add_mul _ _ _
    refine ⟨pairwise_pair.mpr ?_, ?_⟩
    · unfold Before
      rw [hblock]
      show bb.block.toNat * _ + m.toNat ≤ _
      omega
    · simp only [mem_cons, not_mem_nil, or_false, forall_eq_or_imp, forall_eq]
      rw [hblock]
      omega

/-- Cutting one block of a list keeps its order and its image. -/
theorem Keeps.split {orig front back : List BackedBlock} {bb : BackedBlock}
    (h : Keeps orig blockSize.toNat (front ++ bb :: back)) (maxLen : UInt32) :
    Keeps orig blockSize.toNat (front ++ splitNode blockSize bb maxLen ++ back) := by
  have hfit := h.ends bb (by simp)
  obtain ⟨hpair, hin⟩ := splitNode_inside hbs hfit maxLen
  obtain ⟨hfront, hrest, hcross⟩ := pairwise_append.mp h.ordered
  obtain ⟨hbb, hback⟩ := pairwise_cons.mp hrest
  refine { ordered := ?_, image := fun env j => ?_, ends := fun b hb => ?_ }
  · rw [append_assoc, pairwise_append, pairwise_append]
    refine ⟨hfront, ⟨hpair, hback, fun b hb c hc => ?_⟩, fun a ha b hb => ?_⟩
    · exact Nat.le_trans (hin b hb).2 (hbb c hc)
    · rcases mem_append.mp hb with hb | hb
      · exact Nat.le_trans (hcross a ha bb mem_cons_self)
          (Nat.mul_le_mul_right _ (hin b hb).1)
      · exact hcross a ha b (mem_cons_of_mem _ hb)
  · rw [← h.image env j]
    simp [imageOf_append, imageOf_cons, imageOf_splitNode env hbs hfit]
  · simp only [mem_append] at hb
    rcases hb with (hb | hb) | hb
    · exact h.ends b (by simp [hb])
    · -- A half ends where the block does, or before.
      unfold endBlock at hfit ⊢
      have hb' := hin b hb
      have hnum := (numBlocks_le_iff hbs bb _).mp (Nat.le_refl _)
      have hle : b.numBlocks blockSize.toNat
          ≤ bb.block.toNat + bb.numBlocks blockSize.toNat - b.block.toNat := by
        rw [numBlocks_le_iff hbs, Nat.sub_mul, Nat.add_mul]
        omega
      have hpos : b.block.toNat ≤ bb.block.toNat + bb.numBlocks blockSize.toNat := by
        refine Nat.le_of_mul_le_mul_right ?_ hbs
        rw [Nat.add_mul]
        omega
      omega
    · exact h.ends b (by simp [hb])

end

/-! ### One piece -/

/-- No block is empty. -/
def Nonempties (blocks : List BackedBlock) : Prop := ∀ bb ∈ blocks, 0 < bb.len.toNat

/-- A part of a source that can be read can be read. -/
theorem cell_readable_of_le {env : Env} {bb : BackedBlock} {off k : Nat} (hlen : 0 < bb.len.toNat)
    (h : env.cell bb.type 0 bb.len.toNat ≠ .unreadable) (hk : off + k ≤ bb.len.toNat) :
    env.cell bb.type off k ≠ .unreadable := by
  rcases fill_or_source hlen h with ⟨val, hval⟩ | ⟨data, hdata⟩
  · simp [hval, Env.cell]
  · simp [cell_of_source hlen hdata hk]

/-- The bytes of a list of blocks. -/
def totalLen (blocks : List BackedBlock) : Nat := (blocks.map fun b => b.len.toNat).sum

theorem totalLen_append (xs ys : List BackedBlock) :
    totalLen (xs ++ ys) = totalLen xs + totalLen ys := by
  unfold totalLen
  rw [map_append, sum_append]

theorem totalLen_cons (bb : BackedBlock) (xs : List BackedBlock) :
    totalLen (bb :: xs) = bb.len.toNat + totalLen xs := by
  unfold totalLen
  rw [map_cons, sum_cons]

theorem totalLen_pos {blocks : List BackedBlock} (h : Nonempties blocks)
    (hne : blocks ≠ []) : 0 < totalLen blocks := by
  obtain ⟨b, bs, rfl⟩ := exists_cons_of_ne_nil hne
  have := h b mem_cons_self
  rw [totalLen_cons]
  omega

variable {rest : List BackedBlock} {blockSize len : UInt32}

/-- A block is cut into a part that is moved and a rest that is not empty. The
lengths add up, a cut for a whole block or more moves something, and the rest of a
block that can be read can be read. -/
theorem splitNode_cut (env : Env) (hbs : 0 < blockSize.toNat) {bb c : BackedBlock}
    (hpos : 0 < bb.len.toNat) (hcut : splitNode blockSize bb len = c :: rest) :
    Nonempties rest ∧ c.len.toNat + totalLen rest = bb.len.toNat ∧
      (blockSize.toNat ≤ len.toNat → 0 < c.len.toNat) ∧
      (env.cell bb.type 0 bb.len.toNat ≠ .unreadable →
        ∀ b ∈ rest, env.cell b.type 0 b.len.toNat ≠ .unreadable) := by
  rcases splitNode_parts blockSize bb len with
    ⟨hone, _⟩ | ⟨m, second, hm, hlt, htwo, _, _, hlen, htype⟩
  · obtain ⟨rfl, rfl⟩ := cons.inj (hone.symm.trans hcut)
    exact ⟨forall_mem_nil _, rfl, fun _ => hpos, fun _ => forall_mem_nil _⟩
  · obtain ⟨rfl, rfl⟩ := cons.inj (htwo.symm.trans hcut)
    unfold Nonempties
    rw [forall_mem_singleton, forall_mem_singleton, htype, cell_advance]
    refine ⟨by omega, ?_, fun hle => ?_, fun hread => ?_⟩
    · show m.toNat + (second.len.toNat + 0) = _
      omega
    · show 0 < m.toNat
      rw [hm, toNat_alignDown]
      exact Nat.mul_pos hbs (Nat.div_pos hle hbs)
    · exact cell_readable_of_le hpos hread (by omega)

/-- The smallest `max_len` that is allowed, for a block size. -/
def minMaxLen (blockSize : UInt32) : Nat :=
  sparseHeaderLen + 4 * chunkHeaderLen + 4 + blockSize.toNat

section
variable {env : Env} {source : SparseFile} {maxLen : UInt32}

/-- The room left in front of the whole file, as the `unsigned int` it is cut to. -/
theorem toNat_ofInt_roomLeft (maxLen : UInt32) :
    (UInt32.ofInt (roomLeft maxLen [])).toNat = (maxLen.toNat + (2 ^ 32 - 68)) % 2 ^ 32 := by
  have hroom : (roomFor maxLen).toNat = (maxLen.toNat + (2 ^ 32 - 56)) % 2 ^ 32 := by
    unfold roomFor
    rw [UInt32.toNat_sub]
    have hover : (ofNat resparseOverhead).toNat = 56 := rfl
    omega
  have hleft : roomLeft maxLen [] = ((roomFor maxLen).toNat) - 12 := rfl
  rw [ofInt, toNat_ofNat']
  omega

/-- The room that an allowed `max_len` leaves. -/
theorem roomFor_of_minMaxLen {blockSize : UInt32} (hmax : minMaxLen blockSize ≤ maxLen.toNat) :
    80 + blockSize.toNat ≤ maxLen.toNat ∧ (roomFor maxLen).toNat + 56 = maxLen.toNat := by
  have hmin : minMaxLen blockSize = 80 + blockSize.toNat := rfl
  have hroom : (roomFor maxLen).toNat = maxLen.toNat - 56 :=
    toNat_roomFor (show 56 ≤ maxLen.toNat by omega)
  omega

/-- That room is at least a block. -/
theorem blockSize_le_roomLeft (hmax : minMaxLen source.blockSize ≤ maxLen.toNat) :
    source.blockSize.toNat ≤ (UInt32.ofInt (roomLeft maxLen [])).toNat := by
  have hlt := maxLen.toNat_lt
  have hroom := roomFor_of_minMaxLen hmax
  rw [toNat_ofInt_roomLeft]
  omega

/-- Every call that finds a block that does not fit takes bytes off the file. -/
theorem MoveCases.shrinks {moved : List BackedBlock} {r : Option BackedBlock}
    (h : MoveCases env source maxLen moved rest r) (hbs : 0 < source.blockSize.toNat)
    (hroom : source.blockSize.toNat < 2 ^ 31 →
      source.blockSize.toNat ≤ (UInt32.ofInt (roomLeft maxLen [])).toNat)
    (hne : Nonempties source.blocks) :
    Nonempties rest ∧ (r ≠ none → totalLen rest < totalLen source.blocks) := by
  cases h with
  | nothing _ => exact ⟨hne, fun h => absurd rfl h⟩
  | all _ _ => exact ⟨forall_mem_nil _, fun h => absurd rfl h⟩
  | stop front bb back ws wb hfull hfront _ =>
    rw [hfull.split] at hne ⊢
    refine ⟨fun b hb => hne b (mem_append_right _ hb), fun _ => ?_⟩
    have := totalLen_pos (fun b hb => hne b (mem_append_left _ hb)) hfront
    rw [totalLen_append]
    omega
  | cut front bb back ws wb c rest hfull _ hcut =>
    rw [hfull.split] at hne ⊢
    obtain ⟨hrest, hsum, hpos, -⟩ := splitNode_cut env hbs (hne bb (by simp)) hcut
    refine ⟨forall_mem_append.mpr ⟨hrest, fun b hb => hne b (by simp [hb])⟩, fun _ => ?_⟩
    · rw [totalLen_append, totalLen_append, totalLen_cons]
      rcases eq_or_ne front [] with rfl | hfront
      · -- Nothing stands in front of the block, so its first part is not empty.
        obtain rfl : [] = ws := some.inj hfull.front_writes
        have := hpos (hroom hfull.blockSize_lt)
        omega
      · have := totalLen_pos (fun b hb => hne b (mem_append_left _ hb)) hfront
        omega

/-- The blocks that are still to be moved: none is empty, and all can be read. -/
structure Movable (env : Env) (blocks : List BackedBlock) : Prop where
  nonempty : Nonempties blocks
  readable : ∀ bb ∈ blocks, env.cell bb.type 0 bb.len.toNat ≠ .unreadable

/-- What one call of `move_chunks_up_to_len` does to the blocks behind `pre`. -/
theorem MoveCases.keeps {orig pre moved : List BackedBlock} {r : Option BackedBlock}
    (h : MoveCases env source maxLen moved rest r) (hbs : 0 < source.blockSize.toNat)
    (hbs31 : source.blockSize.toNat < 2 ^ 31) (hmax : minMaxLen source.blockSize ≤ maxLen.toNat)
    (hmov : Movable env source.blocks)
    (hkeep : Keeps orig source.blockSize.toNat (pre ++ source.blocks)) :
    Keeps orig source.blockSize.toNat (pre ++ (moved ++ rest)) ∧ Movable env rest ∧
      (r = none → rest = []) := by
  have hne := (h.shrinks hbs (fun _ => blockSize_le_roomLeft hmax) hmov.nonempty).1
  have hread := hmov.readable
  cases h with
  | nothing h =>
    rcases h with h | ⟨front, bb, back, hsplit, _, hnone⟩
    · omega
    · have hbb : bb ∈ source.blocks := by simp [hsplit]
      have := (blockWrites_isSome_iff source.blockSize (hmov.nonempty bb hbb)).mpr
        (hread bb hbb)
      rw [hnone] at this
      exact absurd this (by simp)
  | all _ _ =>
    rw [append_nil]
    exact ⟨hkeep, ⟨hne, forall_mem_nil _⟩, fun _ => rfl⟩
  | stop front bb back ws wb hfull hfront _ =>
    rw [hfull.split] at hkeep hread
    exact ⟨hkeep, ⟨hne, fun b hb => hread b (mem_append_right _ hb)⟩,
      fun h => absurd h (by simp)⟩
  | cut front bb back ws wb c rest hfull _ hcut =>
    rw [hfull.split] at hkeep hread
    refine ⟨?_, ⟨hne, fun b hb => ?_⟩, fun h => absurd h (by simp)⟩
    · have hcutlist := @Keeps.split source.blockSize hbs orig (pre ++ front) back bb
        (by simpa using hkeep) (ofInt (roomLeft maxLen ws))
      rw [hcut] at hcutlist
      simpa using hcutlist
    · rcases mem_append.mp hb with hb | hb
      · exact (splitNode_cut env hbs (hmov.nonempty bb (by simp [hfull.split])) hcut).2.2.2
          (hread bb (by simp)) b hb
      · exact hread b (by simp [hb])

end

/-! ### The loop -/

/-- Moving a whole list behind one that ends before it starts appends it. -/
theorem moveBlocks_append {bs : Nat} (hbs : 0 < bs) {source dest : SparseFile}
    (hpair : (dest.blocks ++ source.blocks).Pairwise (Before bs)) :
    (source.moveBlocks dest none none).2.blocks = dest.blocks ++ source.blocks := by
  have hseg : (source.backedBlockList.dataBlocks.take
      (source.backedBlockList.dataBlocks.length - 1 + 1)).drop 0 = source.blocks := by
    rw [take_of_length_le (by omega)]
    rfl
  unfold SparseFile.moveBlocks backedBlockListMove
  simp only [getD_none, hseg]
  split
  · rename_i hnil
    rw [hnil, append_nil]
  · show spliceInto dest.blocks source.blocks = _
    rename_i hne
    obtain ⟨b, bs', hcons⟩ := exists_cons_of_ne_nil hne
    rw [hcons] at hpair ⊢
    unfold spliceInto
    split
    · exact absurd ‹_› (by simp)
    · rename_i hdest _
      rw [hdest, nil_append]
    · rename_i head rest x xs hdest hx
      obtain ⟨rfl, rfl⟩ := cons.inj hx
      -- Every block of `dest` has a smaller number than the first one of `source`.
      have hall : ∀ a ∈ rest, decide (a.block ≤ b.block) = true := by
        intro a ha
        have hbefore := (pairwise_append.mp hpair).2.2 a
          (by rw [hdest]; exact mem_cons_of_mem _ ha) b mem_cons_self
        rw [decide_eq_true_eq]
        exact Nat.le_of_mul_le_mul_right (Nat.le_trans (Nat.le_add_right _ _) hbefore) hbs
      rw [takeWhile_eq_self_iff.mpr hall, dropWhile_eq_nil_iff.mpr hall, hdest, append_nil]

/-- Everything the loop has its hands on, in the order of the pieces. -/
def stored (outS : List SparseFile) (tmp inS : SparseFile) : List BackedBlock :=
  outS.flatMap SparseFile.blocks ++ (tmp.blocks ++ inS.blocks)

/-- What holds at the head of the loop of `sparse_file_resparse` on `s`, after `c`
pieces. -/
structure LoopInv (env : Env) (s : SparseFile) (outSCount : Int) (inS tmp : SparseFile)
    (outS : List SparseFile) (c : Nat) : Prop where
  keeps : Keeps s.blocks s.blockSize.toNat (stored outS tmp inS)
  movable : Movable env inS.blocks
  shapeIn : SameShape inS s
  shapes : ∀ p ∈ outS, SameShape p s
  count : outS.length = min c outSCount.toNat
  tmpNil : (c : Int) < outSCount → tmp.blocks = []

section
variable {env : Env} {s : SparseFile} {maxLen : UInt32} {outSCount : Int}
  {inS tmp : SparseFile} {outS : List SparseFile} {c : Nat}

section
variable (hbs : 0 < s.blockSize.toNat) (hbs31 : s.blockSize.toNat < 2 ^ 31)
  (hmax : minMaxLen s.blockSize ≤ maxLen.toNat)
include hbs hbs31 hmax

/-- One iteration. -/
theorem LoopInv.step (h : LoopInv env s outSCount inS tmp outS c)
    {inS' piece : SparseFile} {r : Option BackedBlock} {tmp' : SparseFile}
    {outS' : List SparseFile}
    (hmove : moveChunksUpToLen env inS (sparseFileNew inS.blockSize inS.len) maxLen
      = (inS', piece, r))
    (hstore : (tmp', outS') = if (c : Int) < outSCount then (tmp, outS ++ [piece])
      else ((piece.moveBlocks tmp none none).2, outS)) :
    LoopInv env s outSCount inS' tmp' outS' (c + 1) ∧ (r = none → inS'.blocks = []) := by
  obtain ⟨hshape', hshapep, hcases⟩ := hmove ▸ moveChunksUpToLen_cases env inS maxLen
  have hsize := h.shapeIn.1
  have hkeep := h.keeps
  unfold stored at hkeep
  rw [← append_assoc, ← hsize] at hkeep
  obtain ⟨hkeep', hmov', hnone⟩ := hcases.keeps (by rwa [hsize]) (by rwa [hsize])
    (by rwa [hsize]) h.movable hkeep
  rw [hsize] at hkeep'
  have hin : SameShape inS' s := hshape'.trans h.shapeIn
  have hpiece : SameShape piece s := hshapep.trans h.shapeIn
  refine ⟨?_, hnone⟩
  by_cases hc : c < outSCount
  · rw [if_pos hc] at hstore
    obtain ⟨rfl, rfl⟩ := Prod.mk.inj hstore
    have htmp := h.tmpNil hc
    refine { keeps := ?_, movable := hmov', shapeIn := hin, count := ?_, tmpNil := fun _ => htmp,
             shapes := forall_mem_append.mpr ⟨h.shapes, forall_mem_singleton.mpr hpiece⟩ }
    · simpa [stored, htmp] using hkeep'
    · have := h.count
      rw [length_append, length_singleton]
      omega
  · rw [if_neg hc] at hstore
    obtain ⟨rfl, rfl⟩ := Prod.mk.inj hstore
    have happend : (piece.moveBlocks tmp none none).2.blocks = tmp.blocks ++ piece.blocks := by
      refine moveBlocks_append hbs (List.Pairwise.sublist ?_ hkeep'.ordered)
      refine List.Sublist.append (sublist_append_right _ _) (sublist_append_left _ _)
    refine { keeps := ?_, movable := hmov', shapeIn := hin, shapes := h.shapes, count := ?_,
             tmpNil := fun hlt => absurd hlt (by omega) }
    · simpa [stored, happend] using hkeep'
    · have := h.count
      omega

/-- The loop leaves `in_s` empty. -/
theorem LoopInv.run (fuel : Nat) {inS' tmp' : SparseFile} {outS' : List SparseFile} {c' : Nat}
    (h : LoopInv env s outSCount inS tmp outS c)
    (hrun : resparseLoop env maxLen outSCount fuel inS tmp outS c = some (inS', tmp', outS', c')) :
    LoopInv env s outSCount inS' tmp' outS' c' ∧ inS'.blocks = [] := by
  induction fuel generalizing inS tmp outS c with
  | zero => simp [resparseLoop] at hrun
  | succ fuel ih =>
    rw [resparseLoop] at hrun
    rcases hm : moveChunksUpToLen env inS (sparseFileNew inS.blockSize inS.len) maxLen
      with ⟨inS₁, piece, r⟩
    rcases hst : (if c < outSCount then (tmp, outS ++ [piece])
      else ((piece.moveBlocks tmp none none).2, outS)) with ⟨tmp₁, outS₁⟩
    simp only [hm, hst] at hrun
    obtain ⟨hinv, hnone⟩ := h.step hbs hbs31 hmax hm hst.symm
    cases r with
    | none =>
      obtain ⟨rfl, rfl, rfl, rfl⟩ := hrun
      exact ⟨hinv, hnone rfl⟩
    | some bb => exact ih hinv hrun

end

/-- The loop ends, once it has as many iterations as there are bytes. -/
theorem resparseLoop_returns (fuel : Nat) (hbs : 0 < inS.blockSize.toNat)
    (hroom : inS.blockSize.toNat < 2 ^ 31 → inS.blockSize.toNat ≤ (UInt32.ofInt (roomLeft maxLen
      [])).toNat) (hne : Nonempties inS.blocks) (hlt : totalLen inS.blocks < fuel) :
    ∃ r, resparseLoop env maxLen outSCount fuel inS tmp outS c = some r := by
  induction fuel generalizing inS tmp outS c with
  | zero => omega
  | succ fuel ih =>
    obtain ⟨hshape, _, hcases⟩ := moveChunksUpToLen_cases env inS maxLen
    rw [resparseLoop]
    generalize moveChunksUpToLen env inS (sparseFileNew inS.blockSize inS.len) maxLen = m
      at hshape hcases ⊢
    obtain ⟨inS', piece, r⟩ := m
    obtain ⟨hne', hless⟩ := hcases.shrinks hbs hroom hne
    cases r with
    | none => exact ⟨_, rfl⟩
    | some bb =>
      have hsize : inS'.blockSize = inS.blockSize := hshape.1
      have hless' : totalLen inS'.blocks < totalLen inS.blocks := hless (by simp)
      exact ih (by rwa [hsize]) (by rwa [hsize]) hne' (by omega)

/-- A loop that has ended ends in the same state with more iterations left. -/
theorem resparseLoop_mono (fuel : Nat) {r : SparseFile × SparseFile × List SparseFile × Nat}
    (h : resparseLoop env maxLen outSCount fuel inS tmp outS c = some r) :
    ∀ fuel' ≥ fuel, resparseLoop env maxLen outSCount fuel' inS tmp outS c = some r := by
  induction fuel generalizing inS tmp outS c with
  | zero => simp [resparseLoop] at h
  | succ fuel ih =>
    intro fuel' hle
    obtain ⟨fuel', rfl⟩ : ∃ k, fuel' = k + 1 := ⟨fuel' - 1, by omega⟩
    rw [resparseLoop] at h ⊢
    generalize moveChunksUpToLen env inS (sparseFileNew inS.blockSize inS.len) maxLen = m
      at h ⊢
    obtain ⟨inS', piece, bb⟩ := m
    cases bb with
    | none => exact h
    | some bb => exact ih h fuel' (by omega)

/-! ### Main result -/

/-- `r` is `s` cut into pieces: the pieces and the remainder are files of the same
shape, and their blocks, one piece after the other and the remainder last, are in
order, disjoint, and have the image of `s`. -/
structure Resparsed.Partitions (s : SparseFile) (outSCount : Int) (r : Resparsed) : Prop where
  count : r.outS.length = min r.c outSCount.toNat
  shapes : (∀ p ∈ r.outS, SameShape p s) ∧ SameShape r.inS s
  ordered : (r.outS.flatMap SparseFile.blocks ++ r.inS.blocks).Pairwise
    (Before s.blockSize.toNat)
  image : ∀ env j, imageOf env s.blockSize.toNat
    (r.outS.flatMap SparseFile.blocks ++ r.inS.blocks) j = s.image env j

/-- The state the loop starts in. -/
theorem loopInv_start (hs : s.Ordered)
    (hend : ∀ bb ∈ s.blocks, bb.endBlock s.blockSize.toNat ≤ 2 ^ 32) (hread : s.Readable env) :
    LoopInv env s outSCount s (sparseFileNew s.blockSize s.len) [] 0 where
  keeps := { ordered := hs.ordered, image := fun _ _ => rfl, ends := hend }
  movable := ⟨hs.nonempty, hread⟩
  shapeIn := ⟨rfl, rfl⟩
  shapes := forall_mem_nil _
  count := by simp
  tmpNil := fun _ => rfl

/-- When the counter cannot be opened, the loop ends with one empty piece, and
everything remains. -/
theorem resparseLoop_unopened (hs : s.Ordered) (hbs : 2 ^ 31 ≤ s.blockSize.toNat) :
    ∃ inS tmp outS c,
      resparseLoop env maxLen outSCount 1 s (sparseFileNew s.blockSize s.len) [] 0
        = some (inS, tmp, outS, c) ∧
      Resparsed.Partitions s outSCount ⟨c, outS, (tmp.moveBlocks inS none none).2⟩ := by
  have hmove : moveChunksUpToLen env s (sparseFileNew s.blockSize s.len) maxLen
      = (s, sparseFileNew s.blockSize s.len, none) := by
    unfold moveChunksUpToLen outputFileInit
    rw [if_pos (show 2 ^ 31 ≤ (sparseFileNew s.blockSize s.len).blockSize.toNat from hbs)]
  rw [resparseLoop, hmove]
  simp only
  by_cases hc : (0 : Nat) < outSCount
  · rw [if_pos hc]
    refine ⟨_, _, _, _, rfl, ?_, ⟨forall_mem_singleton.mpr ⟨rfl, rfl⟩, rfl, rfl⟩, hs.ordered,
      fun _ _ => rfl⟩
    show 1 = min (0 + 1) outSCount.toNat
    omega
  · rw [if_neg hc]
    refine ⟨_, _, _, _, rfl, ?_, ⟨forall_mem_nil _, rfl, rfl⟩, hs.ordered, fun _ _ => rfl⟩
    show 0 = min (0 + 1) outSCount.toNat
    omega

/-- The loop ends, and what it leaves is the original. -/
theorem resparseLoop_partitions (hs : s.Ordered)
    (hend : ∀ bb ∈ s.blocks, bb.endBlock s.blockSize.toNat ≤ 2 ^ 32) (hread : s.Readable env)
    (hmax : minMaxLen s.blockSize ≤ maxLen.toNat) :
    ∃ n inS tmp outS c,
      resparseLoop env maxLen outSCount n s (sparseFileNew s.blockSize s.len) [] 0
        = some (inS, tmp, outS, c) ∧
      Resparsed.Partitions s outSCount ⟨c, outS, (tmp.moveBlocks inS none none).2⟩ := by
  rcases Nat.lt_or_ge s.blockSize.toNat (2 ^ 31) with hbs31 | hbs31
  · have hstart : LoopInv env s outSCount s _ [] 0 := loopInv_start hs hend hread
    obtain ⟨⟨inS, tmp, outS, c⟩, hrun⟩ := resparseLoop_returns _ hs.blockSize_pos
      (fun _ => blockSize_le_roomLeft hmax) hs.nonempty (Nat.lt_succ_self _)
    obtain ⟨hinv, hnil⟩ := hstart.run hs.blockSize_pos hbs31 hmax _ hrun
    have hkeep := hinv.keeps
    unfold stored at hkeep
    rw [hnil, append_nil] at hkeep
    have hlast : (tmp.moveBlocks inS none none).2.blocks = tmp.blocks := by
      rw [moveBlocks_append hs.blockSize_pos, hnil, nil_append]
      rw [hnil]
      exact (pairwise_append.mp hkeep.ordered).2.1
    have hshape := (moveBlocks_shape tmp inS none none).2
    refine ⟨_, inS, tmp, outS, c, hrun, ?_⟩
    refine { count := hinv.count
             shapes := ⟨hinv.shapes, hshape.trans hinv.shapeIn⟩
             ordered := ?_, image := fun env j => ?_ }
    · rw [hlast]
      exact hkeep.ordered
    · rw [hlast]
      exact hkeep.image env j
  · exact ⟨1, resparseLoop_unopened hs hbs31⟩

end

/-- Resparse loses and duplicates nothing. Take a sparse file with blocks in order,
none of them empty, that all end at block number `2 ^ 32` or before and can be
read, and a `max_len` with room for the headers and one block. Then
`sparse_file_resparse` ends, and the pieces it stores together with what it
leaves in its input are the original file. -/
theorem resparse_partitions (env : Env) (s : SparseFile) (hs : s.Ordered)
    (hend : ∀ bb ∈ s.blocks, bb.endBlock s.blockSize.toNat ≤ 2 ^ 32) (hread : s.Readable env)
    (maxLen : UInt32)
    (hmax : sparseHeaderLen + 4 * chunkHeaderLen + 4 + s.blockSize.toNat ≤ maxLen.toNat)
    (outSCount : Int) :
    ∃ r, r.Partitions s outSCount ∧
      ∃ n, ∀ fuel ≥ n, sparseFileResparse env fuel s maxLen outSCount = some r := by
  obtain ⟨n, inS, tmp, outS, c, hrun, hpart⟩ :
      ∃ n inS tmp outS c, resparseLoop env maxLen outSCount n s _ [] 0 = some _ ∧ _ :=
    resparseLoop_partitions hs hend hread hmax
  refine ⟨_, hpart, n, fun fuel hle => ?_⟩
  unfold sparseFileResparse
  simp only [resparseLoop_mono n hrun fuel hle]
  rfl

/-- A raw block of 20 bytes in blocks of 4, behind a hole of one block. -/
def twentyByteFile : SparseFile where
  len := 24
  backedBlockList :=
    { dataBlocks := [{ block := 1, len := 20, type := .data 0 }]
      lastUsed := none, blockSize := 4 }

theorem resparse_partitions_twentyByteFile :
    ∃ r : Resparsed, r.Partitions twentyByteFile 1 ∧
      ∃ n, ∀ fuel ≥ n, sparseFileResparse Env.blank fuel twentyByteFile 84 1 = some r :=
  resparse_partitions Env.blank twentyByteFile
    ⟨by decide, by decide, by decide⟩ (by decide) (by decide) 84 (by decide) 1

/-- The same block at the last block number: it goes on behind block `2 ^ 32`. -/
def lastBlockFile : SparseFile where
  len := 0x400000010
  backedBlockList :=
    { dataBlocks := [{ block := 0xffffffff, len := 20, type := .data 0 }]
      lastUsed := none, blockSize := 4 }

/-- The second half of a block that is cut behind block `2 ^ 32` starts at block 3,
where the file has nothing. -/
theorem lastBlockFile_resparse_wraps :
    lastBlockFile.Ordered ∧ lastBlockFile.Readable Env.blank ∧
      sparseHeaderLen + 4 * chunkHeaderLen + 4 + lastBlockFile.blockSize.toNat ≤ 84 ∧
      ∃ r, sparseFileResparse Env.blank 3 lastBlockFile 84 2 = some r ∧
        (r.outS.flatMap SparseFile.blocks ++ r.inS.blocks).map BackedBlock.block
          = [0xffffffff, 3] ∧
        imageOf Env.blank 4 (r.outS.flatMap SparseFile.blocks ++ r.inS.blocks) 3
          ≠ lastBlockFile.image Env.blank 3 := by
  refine ⟨⟨by decide, by decide, by decide⟩, by decide, by decide, _, rfl, ?_, ?_⟩
  all_goals decide +kernel

/-! ### Which `max_len` the loop ends for -/

/-- A file with one raw block, in a single block of the image. -/
def wholeBlockFile (blockSize : UInt32) : SparseFile where
  len := blockSize.toNat
  backedBlockList :=
    { dataBlocks := [{ block := 0, len := blockSize, type := .data 0 }]
      lastUsed := none, blockSize := blockSize }

/-- A cut for less than a block moves nothing and leaves the whole block. -/
theorem splitNode_stuck (hlt : len.toNat < blockSize.toNat) :
    splitNode blockSize { block := 0, len := blockSize, type := .data 0 } len
      = [{ block := 0, len := 0, type := .data 0 },
          { block := 0, len := blockSize, type := .data 0 }] := by
  have hdown : alignDown len blockSize = 0 := by
    apply UInt32.toNat_inj.mp
    rw [toNat_alignDown, Nat.div_eq_of_lt hlt]
    rfl
  have hpos : ¬ blockSize ≤ 0 := by
    show ¬ blockSize.toNat ≤ 0
    omega
  unfold splitNode
  simp [hdown, hpos, BackedBlockType.advance]

/-- The chunk of a block that fills one block of the image: a header and the bytes. -/
theorem counted_oneBlock (hbs : 0 < blockSize.toNat) (hbs31 : blockSize.toNat < 2 ^ 31) :
    counted (rawWrites blockSize blockSize (Env.blank.readMem 0 blockSize.toNat))
      = 12 + blockSize.toNat := by
  have hone : divRoundUp blockSize blockSize = 1 := by
    apply UInt32.toNat_inj.mp
    rw [toNat_divRoundUp hbs, toNat_one]
    exact Nat.div_eq_of_lt_le (by omega) (by omega)
  have hpad : align blockSize blockSize - blockSize = 0 := by
    unfold align
    rw [hone, mul_one, UInt32.sub_self]
  unfold rawWrites counted
  simp [hpad, Env.readMem, toInt_eq_of_lt hbs31]
  rfl

variable {maxLen : UInt32}

section

variable (hbs : blockSize.toNat < 2 ^ 31) (hlow : 68 ≤ maxLen.toNat)
  (hhigh : maxLen.toNat < 68 + blockSize.toNat)
include hbs hlow hhigh

/-- With room for less than a block, a call returns the block and leaves it where it is. -/
theorem MoveCases.stuck {source : SparseFile} (hsize : source.blockSize = blockSize)
    (hblocks : source.blocks = (wholeBlockFile blockSize).blocks) {moved : List BackedBlock}
    {r : Option BackedBlock} (h : MoveCases Env.blank source maxLen moved rest r) :
    rest = (wholeBlockFile blockSize).blocks ∧ r ≠ none := by
  have hroom : (roomFor maxLen).toNat = maxLen.toNat - 56 :=
    toNat_roomFor (show 56 ≤ maxLen.toNat by omega)
  have hcount := counted_oneBlock (show 0 < blockSize.toNat by omega) hbs
  rw [show (wholeBlockFile blockSize).blocks
    = [{ block := 0, len := blockSize, type := .data 0 }] from rfl] at hblocks ⊢
  cases h with
  | nothing hfail =>
    rw [hsize] at hfail
    rcases hfail with hbig | ⟨front, bb, back, hsplit, -, hnone⟩
    · omega
    · -- the bytes of the block are in memory
      have hmem : bb ∈ source.blocks := by
        rw [hsplit]
        exact mem_append_right _ mem_cons_self
      rw [hblocks] at hmem
      rw [mem_singleton.mp hmem] at hnone
      cases hnone
  | all _ hfit =>
    obtain ⟨ws, hws, hle⟩ := hfit _ (prefix_refl _)
    rw [hblocks, hsize] at hws
    cases hws
    rw [append_nil, counted_append, counted_gapWrites, hcount] at hle
    omega
  | stop front bb back ws wb hfull hfront _ =>
    have hsplit := hfull.split
    rw [hblocks] at hsplit
    obtain ⟨b, bs, rfl⟩ := exists_cons_of_ne_nil hfront
    simp at hsplit
  | cut front bb back ws wb c rest hfull _ hcut =>
    have hsplit := hfull.split
    rw [hblocks] at hsplit
    rcases append_eq_singleton_iff.mp hsplit.symm with ⟨rfl, hcons⟩ | ⟨-, hnil⟩
    · cases hcons
      obtain rfl : [] = ws := some.inj hfull.front_writes
      have hless : (ofInt (roomLeft maxLen [])).toNat < blockSize.toNat := by
        rw [toNat_ofInt_roomLeft]
        omega
      rw [hsize, splitNode_stuck hless] at hcut
      cases hcut
      exact ⟨rfl, nofun⟩
    · cases hnil

/-- So the loop goes on for ever. -/
theorem resparseLoop_stuck (outSCount : Int) (fuel : Nat) :
    ∀ {inS tmp : SparseFile} {outS : List SparseFile} {c : Nat}, inS.blockSize = blockSize →
      inS.blocks = (wholeBlockFile blockSize).blocks →
      resparseLoop Env.blank maxLen outSCount fuel inS tmp outS c = none := by
  induction fuel with
  | zero => intros; rfl
  | succ fuel ih =>
    intro inS tmp outS c hsize hblocks
    obtain ⟨hshape, _, hcases⟩ := moveChunksUpToLen_cases Env.blank inS maxLen
    rw [resparseLoop]
    generalize moveChunksUpToLen Env.blank inS (sparseFileNew inS.blockSize inS.len) maxLen = m
      at hshape hcases ⊢
    obtain ⟨inS', piece, r⟩ := m
    obtain ⟨hrest, hsome⟩ := hcases.stuck hbs hlow hhigh hsize hblocks
    cases r with
    | none => exact absurd rfl hsome
    | some bb => exact ih (hshape.1.trans hsize) hrest

theorem sparseFileResparse_stuck (outSCount : Int) (fuel : Nat) :
    sparseFileResparse Env.blank fuel (wholeBlockFile blockSize) maxLen outSCount = none := by
  have hloop := @resparseLoop_stuck blockSize maxLen hbs hlow hhigh outSCount fuel
    (wholeBlockFile blockSize) (sparseFileNew blockSize blockSize.toNat) [] 0 rfl rfl
  show (resparseLoop Env.blank maxLen outSCount fuel (wholeBlockFile blockSize)
    (sparseFileNew blockSize blockSize.toNat) [] 0 >>= _) = none
  rw [hloop]
  rfl

end

/-- `sparse_file_resparse` ends for every file of a block size, whatever its blocks, if and
only if the room that a `max_len` leaves for the bytes of one chunk is not less than a block.
(For a `max_len` below the overhead that room wraps around and is huge. With blocks of
`2 ^ 31` bytes the counter is not opened, and the loop ends at once.) -/
theorem resparse_ends_iff (blockSize maxLen : UInt32) (hbs : 0 < blockSize.toNat) :
    (∀ (env : Env) (s : SparseFile) (outSCount : Int), s.blockSize = blockSize →
      Nonempties s.blocks → ∃ r, ∃ n, ∀ fuel ≥ n,
        sparseFileResparse env fuel s maxLen outSCount = some r) ↔
    maxLen.toNat < resparseOverhead + chunkHeaderLen ∨
      resparseOverhead + chunkHeaderLen + blockSize.toNat ≤ maxLen.toNat ∨
      2 ^ 31 ≤ blockSize.toNat := by
  have hover : resparseOverhead + chunkHeaderLen = 68 := rfl
  constructor
  · intro hends
    by_contra hnot
    obtain ⟨r, n, hr⟩ := hends Env.blank (wholeBlockFile blockSize) 0 rfl
      (forall_mem_singleton.mpr hbs)
    have hrun := hr n (Nat.le_refl _)
    rw [sparseFileResparse_stuck (by omega) (by omega) (by omega)] at hrun
    cases hrun
  · rintro hmax env s outSCount rfl hne
    obtain ⟨⟨inS, tmp, outS, c⟩, hrun⟩ := @resparseLoop_returns env maxLen outSCount
      s (sparseFileNew s.blockSize s.len) [] 0 (totalLen s.blocks + 1) hbs (fun hbs31 => by
        have hlt := maxLen.toNat_lt
        rw [toNat_ofInt_roomLeft]
        omega) hne (Nat.lt_succ_self _)
    refine ⟨⟨c, outS, (tmp.moveBlocks inS none none).2⟩, totalLen s.blocks + 1, ?_⟩
    intro fuel hle
    unfold sparseFileResparse
    simp only [resparseLoop_mono _ hrun fuel hle]
    rfl

theorem resparse_ends_iff_fourBytes :
    0 < (4 : UInt32).toNat ∧
    ((∀ (env : Env) (s : SparseFile) (outSCount : Int), s.blockSize = 4 →
      Nonempties s.blocks → ∃ r, ∃ n, ∀ fuel ≥ n,
        sparseFileResparse env fuel s 72 outSCount = some r) ↔
    (72 : UInt32).toNat < resparseOverhead + chunkHeaderLen ∨
      resparseOverhead + chunkHeaderLen + (4 : UInt32).toNat ≤ (72 : UInt32).toNat ∨
      2 ^ 31 ≤ (4 : UInt32).toNat) :=
  ⟨by decide, resparse_ends_iff 4 72 (by decide)⟩

/-- Blocks of 4096 bytes and a `max_len` of 4096: the loop never ends. -/
theorem wholeBlockFile_resparse_stuck :
    Nonempties (wholeBlockFile 4096).blocks ∧
      ∀ fuel, sparseFileResparse Env.blank fuel (wholeBlockFile 4096) 4096 0 = none := by
  refine ⟨?_, sparseFileResparse_stuck (by decide) (by decide) (by decide) 0⟩
  unfold Nonempties
  decide

end AndroidCore.Libsparse
