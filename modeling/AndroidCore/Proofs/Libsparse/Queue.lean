import AndroidCore.Proofs.Libsparse.Image
import Mathlib.Data.List.Basic
import Mathlib.Data.List.TakeWhile

/-!
# `AndroidCore.Proofs.Libsparse.Queue`: queueing at the end of the list

Both readers queue blocks in the order of their block numbers, so every
`queue_bb` call they make lands at the end of the list. `queueBb_eq_pushBlock`
says what such a call does: it either grows the last block by the new one or
appends the new one, whatever `last_used` points to. `imageOf_pushBlock` and
`pairwise_pushBlock` carry the image and the order of the list over that step.
-/

namespace AndroidCore.Libsparse

open BackedBlock List BackedBlockType Option

/-- `merge_bb` finds that `b` continues `a`. -/
def Mergeable (blockSize : UInt32) (a b : BackedBlock) : Prop :=
  a.block + a.len / blockSize = b.block ∧ continues a b.type = true

instance (blockSize : UInt32) (a b : BackedBlock) : Decidable (Mergeable blockSize a b) :=
  inferInstanceAs (Decidable (_ ∧ _))

variable {a b : BackedBlock} {blockSize : UInt32}

/-- On two blocks in order `merge_bb` cannot fail, and merges exactly the
`Mergeable` ones. -/
theorem mergeBb_eq (hbs : 0 < blockSize.toNat) (hlt : a.block < b.block) :
    mergeBb blockSize a b
      = .ok (if Mergeable blockSize a b then some (merged a b) else none) := by
  have hne : blockSize ≠ 0 := by
    intro h
    rw [h] at hbs
    cases hbs
  have htag : continues a b.type = true →
      a.type.sameTag b.type = true := by
    unfold continues
    split <;> simp_all [sameTag]
  unfold mergeBb
  rw [if_neg (not_not.mpr hlt), if_neg hne]
  by_cases hc : continues a b.type = true
  · rw [if_neg (not_not.mpr (htag hc)), if_neg (not_not.mpr hc)]
    by_cases hadj : a.block + a.len / blockSize = b.block
    · rw [if_neg (not_not.mpr hadj), if_pos (show Mergeable blockSize a b from ⟨hadj, hc⟩)]
      rfl
    · rw [if_pos hadj, if_neg (show ¬ Mergeable blockSize a b from fun h => hadj h.1)]
  · rw [if_pos hc,
      if_neg (show ¬ Mergeable blockSize a b from fun h => hc h.2)]
    simp

/-- Queueing a block behind all others: it is merged into the last block, or
appended. -/
def pushBlock (blockSize : UInt32) (blocks : List BackedBlock) (new : BackedBlock) :
    List BackedBlock :=
  match blocks.getLast? with
  | none => [new]
  | some last =>
    if Mergeable blockSize last new then blocks.dropLast ++ [merged last new]
    else blocks ++ [new]

theorem pushBlock_append_singleton (blockSize : UInt32) (front : List BackedBlock)
    (last new : BackedBlock) :
    pushBlock blockSize (front ++ [last]) new
      = if Mergeable blockSize last new then front ++ [merged last new]
        else front ++ [last] ++ [new] := by
  unfold pushBlock
  simp

/-- The block is appended, or it grows the last one. -/
theorem pushBlock_cases (blockSize : UInt32) (blocks : List BackedBlock) (new : BackedBlock) :
    pushBlock blockSize blocks new = blocks ++ [new] ∧
        (∀ last, blocks.getLast? = some last → ¬ Mergeable blockSize last new) ∨
      ∃ front last, blocks = front ++ [last] ∧ Mergeable blockSize last new ∧
        pushBlock blockSize blocks new = front ++ [merged last new] := by
  rcases eq_nil_or_concat' blocks with rfl | ⟨front, last, rfl⟩
  · exact .inl ⟨rfl, nofun⟩
  · rw [pushBlock_append_singleton]
    by_cases hm : Mergeable blockSize last new
    · exact .inr ⟨front, last, rfl, hm, if_pos hm⟩
    · refine .inl ⟨if_neg hm, fun last' hlast => ?_⟩
      rw [getLast?_concat] at hlast
      exact some.inj hlast ▸ hm

section
variable (bbl : BackedBlockList) (new : BackedBlock) (hne : bbl.dataBlocks ≠ [])
include hne

/-- The search of `queue_bb` starts inside the list. -/
theorem searchStart_lt : bbl.searchStart new < bbl.dataBlocks.length := by
  have hpos : 0 < bbl.dataBlocks.length := length_pos_iff.mpr hne
  unfold BackedBlockList.searchStart
  split
  · exact hpos
  · split
    · exact hpos
    · rename_i i _ b hb
      split
      · exact (List.getElem?_eq_some_iff.mp hb).1
      · exact hpos

/-- When every block number in the list is smaller, the search runs to the last
node, from wherever it started. -/
theorem insertPos_eq (hlt : ∀ b ∈ bbl.dataBlocks, b.block < new.block) :
    bbl.insertPos new = bbl.dataBlocks.length - 1 := by
  have hstart := searchStart_lt bbl new hne
  unfold BackedBlockList.insertPos
  simp only
  have hall : (bbl.dataBlocks.drop (bbl.searchStart new + 1)).takeWhile
        (fun b => decide (b.block < new.block))
      = bbl.dataBlocks.drop (bbl.searchStart new + 1) := by
    rw [takeWhile_eq_self_iff]
    intro b hb
    exact decide_eq_true (hlt b (mem_of_mem_drop hb))
  rw [hall, length_drop]
  omega

end

variable {new : BackedBlock}

/-- `queue_bb` of a block whose number is larger than every number in the list.
The list becomes `pushBlock`, and the call cannot fail. -/
theorem queueBb_eq_pushBlock {bbl : BackedBlockList} (hbs : 0 < bbl.blockSize.toNat)
    (hlt : ∀ b ∈ bbl.dataBlocks, b.block < new.block) :
    ∃ lastUsed, queueBb bbl new
      = .ok { bbl with dataBlocks := pushBlock bbl.blockSize bbl.dataBlocks new, lastUsed } := by
  rcases eq_nil_or_concat' bbl.dataBlocks with hnil | ⟨front, last, hcat⟩
  · refine ⟨bbl.lastUsed, ?_⟩
    unfold queueBb
    rw [hnil]
    rfl
  · have hne : bbl.dataBlocks ≠ [] := by simp [hcat]
    have hpos : bbl.insertPos new = front.length := by
      rw [insertPos_eq bbl new hne hlt, hcat]
      simp
    have hlast : last.block < new.block := hlt last (by simp [hcat])
    have htake : bbl.dataBlocks.take front.length = front := by simp [hcat]
    have hdrop : bbl.dataBlocks.drop front.length = [last] := by simp [hcat]
    obtain ⟨head, tail, hhead⟩ := exists_cons_of_ne_nil hne
    have hnot : ¬ new.block < head.block := by
      have := hlt head (by simp [hhead])
      exact fun h => absurd (UInt32.lt_trans h this) (UInt32.lt_irrefl _)
    have hrun : queueBb bbl new
        = (mergeBb bbl.blockSize last new).map fun merged => merged.elim
            { bbl with dataBlocks := front ++ [last, new], lastUsed := some (front.length + 1) }
            fun bb' => { bbl with
              dataBlocks := front ++ [bb'], lastUsed := some front.length } := by
      unfold queueBb
      split
      · exact absurd ‹_› hne
      · rename_i head' tail' hh
        have hheq : head' = head := by
          rw [hhead] at hh
          exact (cons.inj hh).1.symm
        rw [hheq, if_neg hnot]
        simp only [hpos, htake, hdrop]
        show (mergeBb bbl.blockSize last new >>= _) = _
        rcases mergeBb bbl.blockSize last new with e | _ | bb' <;> rfl
    rw [hrun, mergeBb_eq hbs hlast, hcat, pushBlock_append_singleton]
    by_cases hm : Mergeable bbl.blockSize last new
    · rw [if_pos hm, if_pos hm]
      exact ⟨_, rfl⟩
    · rw [if_neg hm, if_neg hm]
      refine ⟨some (front.length + 1), ?_⟩
      simp only [append_assoc]
      rfl

/-- What `merge_bb` merges, it merges into the first block. -/
theorem eq_merged_of_mergeBb {a' : BackedBlock} (h : mergeBb blockSize a b = .ok (some a')) :
    a' = merged a b := by
  unfold mergeBb at h
  repeat' split at h
  all_goals simp only [reduceCtorEq, Except.ok.injEq, some.injEq] at h
  exact h.symm

theorem block_of_mergeNext {new' : BackedBlock} {post post' : List BackedBlock}
    (h : mergeNext blockSize new post = .ok (new', post')) : new'.block = new.block := by
  cases post with
  | nil =>
    cases h
    rfl
  | cons next rest =>
    rw [mergeNext] at h
    cases hm : mergeBb blockSize new next with
    | error f =>
      rw [hm] at h
      cases h
    | ok r =>
      rw [hm] at h
      cases r with
      | none =>
        cases h
        rfl
      | some new'' =>
        cases h
        rw [eq_merged_of_mergeBb hm]
        rfl

/-- A block at the number of the head, with no smaller number in the list, trips
the assertion of `merge_bb`. -/
theorem queueBb_same_head {bbl : BackedBlockList} {head : BackedBlock} {tail : List BackedBlock}
    (hlist : bbl.dataBlocks = head :: tail) (hblock : new.block = head.block)
    (hmin : ∀ b ∈ tail, ¬ b.block < new.block) : ∃ f, queueBb bbl new = .error f := by
  have hall : ∀ b ∈ bbl.dataBlocks, ¬ b.block < new.block := by
    rw [hlist]
    refine forall_mem_cons.mpr ⟨?_, hmin⟩
    rw [hblock]
    exact UInt32.lt_irrefl _
  have hstart : bbl.searchStart new = 0 := by
    unfold BackedBlockList.searchStart
    split
    · rfl
    · split
      · rfl
      · rename_i b hb
        exact if_neg (hall b (mem_of_getElem? hb))
  have hpos : bbl.insertPos new = 0 := by
    unfold BackedBlockList.insertPos
    simp only [hstart, hlist, drop_succ_cons, drop_zero]
    cases tail with
    | nil => rfl
    | cons next rest =>
      rw [takeWhile_cons_of_neg (by simpa using hmin next mem_cons_self)]
      rfl
  unfold queueBb
  simp only [hpos, hlist, drop_zero]
  rw [if_neg (by rw [hblock]; exact UInt32.lt_irrefl _)]
  cases hnext : mergeNext bbl.blockSize new tail with
  | error f => exact ⟨f, rfl⟩
  | ok r =>
    have hnew : ¬ head.block < r.1.block := by
      rw [block_of_mergeNext hnext, hblock]
      exact UInt32.lt_irrefl _
    simp [bind, Except.bind, mergeBb, hnew]

/-! ### What pushing a block does to the list -/

section
variable {blockSize : UInt32} (hbs : 0 < blockSize.toNat)
include hbs

/-- A block that merges into one that ends before it starts right behind it. -/
theorem adjacent_of_mergeable (hbefore : Before blockSize.toNat a b) (hm : Mergeable blockSize a b)
    : b.block.toNat * blockSize.toNat = a.block.toNat * blockSize.toNat + a.len.toNat := by
  have hadj := congrArg UInt32.toNat hm.1
  rw [UInt32.toNat_add, UInt32.toNat_div] at hadj
  have hdiv : a.len.toNat / blockSize.toNat * blockSize.toNat ≤ a.len.toNat :=
    Nat.div_mul_le_self _ _
  unfold Before at hbefore
  -- The sum of the C check cannot wrap, because `b` lies behind `a`.
  have hsum : a.block.toNat + a.len.toNat / blockSize.toNat ≤ b.block.toNat := by
    refine Nat.le_of_mul_le_mul_right ?_ hbs
    rw [Nat.add_mul]
    omega
  rw [Nat.mod_eq_of_lt (by omega)] at hadj
  rw [← hadj, Nat.add_mul] at hbefore ⊢
  omega

/-- Pushing a block adds its cells to the image. -/
theorem imageOf_pushBlock (env : Env) {blocks : List BackedBlock}
    (hbefore : ∀ b ∈ blocks, Before blockSize.toNat b new)
    (hsum : ∀ last, blocks.getLast? = some last → Mergeable blockSize last new →
      last.len.toNat + new.len.toNat < 2 ^ 32) (j : Nat) :
    imageOf env blockSize.toNat (pushBlock blockSize blocks new) j
      = (imageOf env blockSize.toNat blocks j).or (new.image env blockSize.toNat j) := by
  rcases pushBlock_cases blockSize blocks new with ⟨heq, -⟩ | ⟨front, last, rfl, hm, heq⟩
  · rw [heq, imageOf_append, imageOf_cons, imageOf_nil, or_none]
  · have himg := image_merged env hbs (adjacent_of_mergeable hbs (hbefore last (by simp)) hm)
      (eq_advance_of_continues hm.2) (hsum last (by simp) hm) j
    simp [heq, imageOf_append, imageOf_cons, imageOf_nil, himg, Option.or_assoc]

end

variable {blocks : List BackedBlock} {blockSize : UInt32}

/-- A relation along the list survives a push, if merging into its second block
keeps it and a block that is appended stands in it to all others. -/
theorem pairwise_pushBlock_of {R : BackedBlock → BackedBlock → Prop} (hpair : blocks.Pairwise R)
    (hmerged : ∀ a last, R a last → R a (merged last new))
    (hnew : (∀ last, blocks.getLast? = some last → ¬ Mergeable blockSize last new) →
      ∀ a ∈ blocks, R a new) : (pushBlock blockSize blocks new).Pairwise R := by
  rcases pushBlock_cases blockSize blocks new with ⟨heq, hnot⟩ | ⟨front, last, rfl, -, heq⟩
  · rw [heq]
    exact pairwise_append.mpr ⟨hpair, pairwise_singleton _ _, fun a ha =>
      forall_mem_singleton.mpr (hnew hnot a ha)⟩
  · obtain ⟨hfront, -, hlast⟩ := pairwise_append.mp hpair
    rw [heq]
    exact pairwise_append.mpr ⟨hfront, pairwise_singleton _ _, fun a ha =>
      forall_mem_singleton.mpr (hmerged a last (hlast a ha last (by simp)))⟩

/-- Pushing a block keeps the list sorted and disjoint: a merged block starts
where the last one did. -/
theorem pairwise_pushBlock (hpair : blocks.Pairwise (Before blockSize.toNat))
    (hbefore : ∀ b ∈ blocks, Before blockSize.toNat b new) :
    (pushBlock blockSize blocks new).Pairwise (Before blockSize.toNat) :=
  pairwise_pushBlock_of hpair (fun _ _ h => h) fun _ => hbefore

/-- A property of the blocks of a list survives a push, if it holds of the new
block and of what merging makes of the last one. -/
theorem forall_mem_pushBlock {P : BackedBlock → Prop} (hall : ∀ b ∈ blocks, P b) (hnew : P new)
    (hmerged : ∀ last, blocks.getLast? = some last → Mergeable blockSize last new →
      P (merged last new)) : ∀ b ∈ pushBlock blockSize blocks new, P b := by
  rcases pushBlock_cases blockSize blocks new with ⟨heq, -⟩ | ⟨front, last, rfl, hm, heq⟩
  · rw [heq]
    exact forall_mem_append.mpr ⟨hall, forall_mem_singleton.mpr hnew⟩
  · rw [heq]
    exact forall_mem_append.mpr ⟨(forall_mem_append.mp hall).1,
      forall_mem_singleton.mpr (hmerged last (by simp) hm)⟩

end AndroidCore.Libsparse
