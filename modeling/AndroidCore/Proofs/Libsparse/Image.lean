import AndroidCore.Libsparse.Image

/-!
# `AndroidCore.Proofs.Libsparse.Image`: splitting and merging keep the image

The two operations that rewrite a backed block are `merge_bb`, which makes one
block of two, and `backed_block_split`, which makes two of one. Both leave the
image as it was, under the conditions the theorems name:

* `image_merged`: the merged block has the image of both blocks, as long as the
  sum of the two lengths fits 32 bits.
* `imageOf_splitNode`: the two halves have the image of the block, as long as
  the block numbers fit 32 bits.

`before_iff` reads the order of two blocks as an order of block numbers.
-/

namespace AndroidCore.Libsparse

namespace BackedBlock

/-! ### Block numbers -/

variable {bs : Nat}

/-- The number of touched blocks is the least number of blocks that hold the
length. -/
theorem numBlocks_le_iff (hbs : 0 < bs) (bb : BackedBlock) (d : Nat) :
    bb.numBlocks bs ≤ d ↔ bb.len.toNat ≤ d * bs := by
  unfold numBlocks
  rw [← Nat.lt_add_one_iff, Nat.div_lt_iff_lt_mul hbs, Nat.add_mul]
  omega

theorem lt_numBlocks_iff (hbs : 0 < bs) (bb : BackedBlock) (d : Nat) :
    d < bb.numBlocks bs ↔ d * bs < bb.len.toNat := by
  have h := numBlocks_le_iff hbs bb d
  omega

variable {bb : BackedBlock}

theorem numBlocks_pos (hbs : 0 < bs) (h : 0 < bb.len.toNat) : 0 < bb.numBlocks bs :=
  (lt_numBlocks_iff hbs bb 0).mpr (by omega)

/-- One block ends before another starts exactly when its end block number is at
most the other's block number. -/
theorem before_iff (hbs : 0 < bs) (a b : BackedBlock) :
    Before bs a b ↔ a.endBlock bs ≤ b.block.toNat := by
  unfold Before endBlock
  by_cases h : a.block.toNat ≤ b.block.toNat
  · have hsplit : b.block.toNat = a.block.toNat + (b.block.toNat - a.block.toNat) := by omega
    have hnum := numBlocks_le_iff hbs a (b.block.toNat - a.block.toNat)
    rw [hsplit, Nat.add_mul]
    omega
  · have hmul : b.block.toNat * bs < a.block.toNat * bs :=
      Nat.mul_lt_mul_of_pos_right (by omega) hbs
    omega

theorem Before.endBlock_le (hbs : 0 < bs) {a b : BackedBlock} (h : Before bs a b) :
    a.endBlock bs ≤ b.block.toNat :=
  (before_iff hbs a b).mp h

/-! ### The image of one block -/

variable {env : Env} {bs j : Nat}

theorem image_of_mem (h₁ : bb.block.toNat ≤ j) (h₂ : j < bb.endBlock bs) :
    bb.image env bs j
      = some (env.cell bb.type ((j - bb.block.toNat) * bs)
          (min bs (bb.len.toNat - (j - bb.block.toNat) * bs))) := by
  unfold image
  rw [if_pos ⟨h₁, h₂⟩]

theorem image_of_lt (h : j < bb.block.toNat) : bb.image env bs j = none := by
  unfold image
  rw [if_neg (by omega)]

theorem image_of_le (h : bb.endBlock bs ≤ j) : bb.image env bs j = none := by
  unfold image
  rw [if_neg (by omega)]

theorem image_isSome_iff :
    (bb.image env bs j).isSome ↔ bb.block.toNat ≤ j ∧ j < bb.endBlock bs := by
  unfold image
  split <;> simp_all

end BackedBlock

open BackedBlock BackedBlockType Option UInt32

/-! ### Sources -/

/-- Advancing a source by `n` bytes shifts its cells by `n`. -/
theorem cell_advance (env : Env) (t : BackedBlockType) (n : UInt32) (off k : Nat) :
    env.cell (t.advance n) off k = env.cell t (n.toNat + off) k := by
  cases t with
  | data p => simp [advance, Env.cell, Nat.add_assoc]
  | file name o =>
    simp [advance, Env.cell, Int.add_assoc]
  | fd f o => simp [advance, Env.cell, Int.add_assoc]
  | fill v => rfl

/-- The source of a block that `merge_bb` finds to continue another is the
other's source, advanced by the other's length. -/
theorem eq_advance_of_continues {a : BackedBlock} {t : BackedBlockType}
    (h : continues a t = true) : t = a.type.advance a.len := by
  unfold continues at h
  split at h
  · cases h
  · simp_all [advance]
  · simp_all [advance]
  · simp_all [advance]
  · cases h

/-! ### Lists of blocks -/

theorem imageOf_nil (env : Env) (bs j : Nat) : imageOf env bs [] j = none := rfl

theorem imageOf_cons (env : Env) (bs : Nat) (bb : BackedBlock) (rest : List BackedBlock) (j : Nat) :
    imageOf env bs (bb :: rest) j = (bb.image env bs j).or (imageOf env bs rest j) := by
  unfold imageOf
  rw [List.findSome?_cons]
  cases bb.image env bs j <;> rfl

theorem imageOf_append (env : Env) (bs : Nat) (xs ys : List BackedBlock) (j : Nat) :
    imageOf env bs (xs ++ ys) j = (imageOf env bs xs j).or (imageOf env bs ys j) := by
  unfold imageOf
  rw [List.findSome?_append]

variable {xs : List BackedBlock} {bs j : Nat} {env : Env}

/-- Behind the end of every block there is no cell. -/
theorem imageOf_eq_none (h : ∀ bb ∈ xs, bb.endBlock bs ≤ j) : imageOf env bs xs j = none := by
  unfold imageOf
  rw [List.findSome?_eq_none_iff]
  exact fun bb hbb => image_of_le (h bb hbb)

/-- A cell of the image is the cell of one of the blocks. -/
theorem exists_mem_of_imageOf {c : Cell} (h : imageOf env bs xs j = some c) :
    ∃ bb ∈ xs, bb.block.toNat ≤ j ∧ j < bb.endBlock bs ∧ bb.image env bs j = some c := by
  obtain ⟨bb, hbb, himg⟩ := List.exists_of_findSome?_eq_some h
  obtain ⟨hle, hlt⟩ := image_isSome_iff.mp (isSome_of_eq_some himg)
  exact ⟨bb, hbb, hle, hlt, himg⟩

variable {bb : BackedBlock}

/-- In a list in order, no other block has a say in the cells of a block. -/
theorem imageOf_of_mem (hbs : 0 < bs) (hpair : xs.Pairwise (Before bs)) (hbb : bb ∈ xs)
    (h₁ : bb.block.toNat ≤ j) (h₂ : j < bb.endBlock bs) :
    imageOf env bs xs j = bb.image env bs j := by
  obtain ⟨front, back, rfl⟩ := List.append_of_mem hbb
  have hfront : imageOf env bs front j = none := imageOf_eq_none fun a ha => by
    have := ((List.pairwise_append.mp hpair).2.2 a ha bb List.mem_cons_self).endBlock_le hbs
    omega
  rw [imageOf_append, hfront, none_or, imageOf_cons, image_of_mem h₁ h₂, some_or]

/-! ### Merging -/

/-- The block `merge_bb` makes of `a` and `b`. -/
def merged (a b : BackedBlock) : BackedBlock := { a with len := a.len + b.len }

/-- `merge_bb` keeps the image: when `b` starts right behind `a`, its source is
that of `a` advanced by the length of `a`, and the sum of the lengths fits 32
bits, the merged block has the cells of both. -/
theorem image_merged (env : Env) (hbs : 0 < bs) {a b : BackedBlock}
    (hadj : b.block.toNat * bs = a.block.toNat * bs + a.len.toNat)
    (hsrc : b.type = a.type.advance a.len) (hsum : a.len.toNat + b.len.toNat < 2 ^ 32) (j : Nat) :
    (merged a b).image env bs j = (a.image env bs j).or (b.image env bs j) := by
  have hlen : (merged a b).len.toNat = a.len.toNat + b.len.toNat := by
    simp only [merged, UInt32.toNat_add]
    omega
  have hle : a.block.toNat ≤ b.block.toNat := Nat.le_of_mul_le_mul_right (by omega) hbs
  -- `a` fills whole blocks, so its length is the distance of the block numbers.
  obtain ⟨d, hd⟩ : ∃ d, b.block.toNat = a.block.toNat + d := ⟨_, (Nat.add_sub_of_le hle).symm⟩
  have halen : a.len.toNat = d * bs := by
    rw [hd, Nat.add_mul] at hadj
    omega
  have haend : a.endBlock bs = b.block.toNat := by
    have h₁ := numBlocks_le_iff hbs a d
    have h₂ := lt_numBlocks_iff hbs a (d - 1)
    unfold endBlock
    rcases Nat.eq_zero_or_pos d with hz | hpos
    · omega
    · have hpred : (d - 1) * bs < d * bs := Nat.mul_lt_mul_of_pos_right (by omega) hbs
      omega
  have hmend : (merged a b).endBlock bs = b.endBlock bs := by
    have hnum : (merged a b).numBlocks bs = d + b.numBlocks bs := by
      unfold numBlocks
      rw [hlen, halen, show d * bs + b.len.toNat + bs - 1 = b.len.toNat + bs - 1 + d * bs by omega,
        Nat.add_mul_div_right _ _ hbs]
      omega
    unfold endBlock
    show a.block.toNat + _ = _
    omega
  have hmblock : (merged a b).block = a.block := rfl
  rcases Nat.lt_or_ge j a.block.toNat with hj | hj
  · rw [image_of_lt (by rwa [hmblock]), image_of_lt hj, image_of_lt (by omega)]
    rfl
  rcases Nat.lt_or_ge j b.block.toNat with hjb | hjb
  · -- Inside `a` a cell has as many bytes as before.
    have hoff : (j - a.block.toNat) * bs + bs ≤ a.len.toNat := by
      have := Nat.mul_le_mul_right bs (show j - a.block.toNat + 1 ≤ d by omega)
      rw [Nat.add_mul] at this
      omega
    have hbend : b.block.toNat ≤ b.endBlock bs := Nat.le_add_right _ _
    rw [image_of_mem (by rwa [hmblock]) (by omega), image_of_mem hj (by omega),
      hmblock, hlen]
    have hmin : min bs (a.len.toNat + b.len.toNat - (j - a.block.toNat) * bs)
        = min bs (a.len.toNat - (j - a.block.toNat) * bs) := by omega
    rw [hmin]
    rfl
  rw [image_of_le (show a.endBlock bs ≤ j by omega), none_or]
  rcases Nat.lt_or_ge j (b.endBlock bs) with hje | hje
  · -- Inside `b` the source of `a` is read `a.len` bytes further on.
    have hoff : (j - a.block.toNat) * bs = a.len.toNat + (j - b.block.toNat) * bs := by
      rw [halen, ← Nat.add_mul]
      congr 1
      omega
    rw [image_of_mem (by rwa [hmblock]) (by omega), image_of_mem hjb hje,
      hsrc, cell_advance, hmblock, hlen, hoff]
    have hsub : a.len.toNat + b.len.toNat - (a.len.toNat + (j - b.block.toNat) * bs)
        = b.len.toNat - (j - b.block.toNat) * bs := by omega
    rw [hsub]
    rfl
  · rw [image_of_le (by omega), image_of_le hje]

/-! ### Splitting -/

theorem toNat_alignDown (x y : UInt32) : (alignDown x y).toNat = y.toNat * (x.toNat / y.toNat) := by
  have hle : y.toNat * (x.toNat / y.toNat) ≤ x.toNat := Nat.mul_div_le _ _
  have hx := x.toNat_lt
  simp only [alignDown, UInt32.toNat_mul, UInt32.toNat_div]
  exact Nat.mod_eq_of_lt (by omega)

/-- `backed_block_split` leaves the node as it is, or cuts it: the first half has
`m` bytes, and the second half goes on behind them. -/
theorem splitNode_parts (blockSize : UInt32) (bb : BackedBlock) (maxLen : UInt32) :
    splitNode blockSize bb maxLen = [bb] ∧
        bb.len.toNat ≤ (alignDown maxLen blockSize).toNat ∨
    ∃ (m : UInt32) (second : BackedBlock), m = alignDown maxLen blockSize ∧
      m.toNat < bb.len.toNat ∧ splitNode blockSize bb maxLen = [{ bb with len := m }, second] ∧
      second.block = bb.block + m / blockSize ∧ second.len = bb.len - m ∧
      second.len.toNat = bb.len.toNat - m.toNat ∧ second.type = bb.type.advance m := by
  unfold splitNode
  simp only
  split
  · rename_i hle
    exact .inl ⟨rfl, le_iff_toNat_le.mp hle⟩
  · rename_i hlt
    rw [le_iff_toNat_le, Nat.not_le] at hlt
    refine .inr ⟨_, _, rfl, hlt, rfl, rfl, rfl, ?_, rfl⟩
    exact UInt32.toNat_sub_of_le _ _ (by rw [le_iff_toNat_le]; omega)

/-- `backed_block_split` inside the range of the block numbers: a node that is cut
is cut behind `q` whole blocks, and merging the halves again gives the node. -/
theorem splitNode_cases {blockSize : UInt32} (hbs : 0 < blockSize.toNat)
    (hfit : bb.endBlock blockSize.toNat ≤ 2 ^ 32) (maxLen : UInt32) :
    splitNode blockSize bb maxLen = [bb] ∧
        bb.len.toNat ≤ (alignDown maxLen blockSize).toNat ∨
    ∃ (m : UInt32) (q : Nat) (second : BackedBlock), m = alignDown maxLen blockSize ∧
      m.toNat = q * blockSize.toNat ∧ m.toNat < bb.len.toNat ∧
      splitNode blockSize bb maxLen = [{ bb with len := m }, second] ∧
      second.block.toNat = bb.block.toNat + q ∧ second.len.toNat = bb.len.toNat - m.toNat ∧
      second.type = bb.type.advance m ∧ merged { bb with len := m } second = bb := by
  rcases splitNode_parts blockSize bb maxLen with
    hone | ⟨m, second, hm, hlt, htwo, hblock, hlen, hlenNat, htype⟩
  · exact .inl hone
  obtain ⟨q, hq⟩ : ∃ q, m.toNat = q * blockSize.toNat :=
    ⟨maxLen.toNat / blockSize.toNat, by rw [hm, toNat_alignDown, Nat.mul_comm]⟩
  have hqnum : q < bb.numBlocks blockSize.toNat := (lt_numBlocks_iff hbs bb q).mpr (by omega)
  refine .inr ⟨m, q, second, hm, hq, hlt, htwo, ?_, hlenNat, htype, ?_⟩
  · unfold endBlock at hfit
    rw [hblock, UInt32.toNat_add, UInt32.toNat_div, hq, Nat.mul_div_cancel _ hbs]
    omega
  · simp only [merged]
    rw [hlen, show m + (bb.len - m) = bb.len by rw [UInt32.add_comm, UInt32.sub_add_cancel]]

/-- `backed_block_split` keeps the image of the block it cuts: merging the two
halves again gives the block. -/
theorem imageOf_splitNode (env : Env) {blockSize : UInt32} (hbs : 0 < blockSize.toNat)
    (hfit : bb.endBlock blockSize.toNat ≤ 2 ^ 32) (maxLen : UInt32) (j : Nat) :
    imageOf env blockSize.toNat (splitNode blockSize bb maxLen) j
      = bb.image env blockSize.toNat j := by
  rcases splitNode_cases hbs hfit maxLen with
    ⟨hone, _⟩ | ⟨m, q, second, _, hq, hlt, htwo, hblock, hlen, htype, hwhole⟩
  · rw [hone, imageOf_cons, imageOf_nil, or_none]
  · rw [htwo, imageOf_cons, imageOf_cons, imageOf_nil, or_none]
    conv_rhs => rw [← hwhole]
    refine (image_merged env hbs ?_ htype ?_ j).symm
    · simp only [hblock, Nat.add_mul]
      omega
    · simp only [hlen]
      have := bb.len.toNat_lt
      omega

end AndroidCore.Libsparse
