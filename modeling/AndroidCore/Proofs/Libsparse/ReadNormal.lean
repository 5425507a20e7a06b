import AndroidCore.Proofs.Libsparse.Chunks
import AndroidCore.Proofs.Libsparse.Reader
import Mathlib.Data.List.Pairwise

/-!
# `AndroidCore.Proofs.Libsparse.ReadNormal`: importing a plain image

`sparse_file_read_normal` cuts a file into blocks of 4096 bytes and queues each
one, as a fill when all its words are equal and as a range of the file
otherwise. `queue_bb` merges each block into the last one whenever it can.

`plainCell` says which cell every block of the file should become. The list the
loop builds is `plainBlocks`, one `pushBlock` per block of the file. It has the
cells of the file exactly when no merged length reaches `2 ^ 32` bytes, which is
to say that the file has no run of `2 ^ 20` full blocks that all merge
(`LongRun`). Past `2 ^ 44` bytes the block number itself wraps, and the
assertion of `merge_bb` stops the process.
-/

namespace AndroidCore.Libsparse

open Lib BackedBlock List BackedBlockType UInt32

/-! ### The blocks of a plain image -/

/-- The bytes of block `j` of a plain image. -/
def plainBlock (file : List UInt8) (j : Nat) : List UInt8 := (file.drop (j * 4096)).take 4096

/-- Block `j` is a full block whose 32-bit words are all equal. -/
def ConstantBlock (file : List UInt8) (j : Nat) : Prop :=
  (plainBlock file j).length = 4096 ∧ sparseBlock 4096 (plainBlock file j) = true

instance (file : List UInt8) (j : Nat) : Decidable (ConstantBlock file j) :=
  inferInstanceAs (Decidable (_ ∧ _))

/-- The first 32-bit word of block `j`. -/
def plainWord (file : List UInt8) (j : Nat) : UInt32 := le32At (plainBlock file j) 0

/-- The cell block `j` of a plain image should become. -/
def plainCell (file : List UInt8) (j : Nat) : Option Cell :=
  if j * 4096 < file.length then
    some (if ConstantBlock file j then .fill (plainWord file j) 4096
      else .raw (plainBlock file j))
  else none

/-- The bytes of a cell. -/
def Cell.bytes : Cell → List UInt8
  | .raw bytes => bytes
  | .fill val n => fillBytes val n
  | .unreadable => []

/-- `2 ^ 20` full blocks from block `i` on that all merge: fills of one word, or
ranges of the file. -/
def LongRun (file : List UInt8) (i : Nat) : Prop :=
  (i + 2 ^ 20) * 4096 ≤ file.length ∧
    ((∃ val, ∀ j, i ≤ j → j < i + 2 ^ 20 → ConstantBlock file j ∧ plainWord file j = val) ∨
      ∀ j, i ≤ j → j < i + 2 ^ 20 → ¬ ConstantBlock file j)

/-- The block `sparse_file_read_normal` queues for block `k` of the file. -/
def plainBacked (file : List UInt8) (fd : Int) (k : Nat) : BackedBlock where
  block := UInt32.ofNat k
  len := UInt32.ofNat (plainBlock file k).length
  type := if ConstantBlock file k then .fill (plainWord file k) else .fd fd (k * 4096)

/-- The list after the first `n` blocks of the file. -/
def plainBlocks (file : List UInt8) (fd : Int) : Nat → List BackedBlock
  | 0 => []
  | n + 1 => pushBlock 4096 (plainBlocks file fd n) (plainBacked file fd n)

/-- The number of blocks of a plain image. -/
def plainCount (file : List UInt8) : Nat := (file.length + 4095) / 4096

theorem lt_plainCount_iff {file : List UInt8} {k : Nat} :
    k < plainCount file ↔ k * 4096 < file.length := by
  unfold plainCount
  omega

theorem length_plainBlock (file : List UInt8) (j : Nat) :
    (plainBlock file j).length = min 4096 (file.length - j * 4096) := by
  simp [plainBlock]

/-! ### Fills hold the bytes of their block -/

/-- The four bytes a word was read from. -/
theorem le32_le32At {buf : List UInt8} {off : Nat} (h : off + 4 ≤ buf.length) :
    le32 (le32At buf off) = (buf.drop off).take 4 := by
  have hlen : ((buf.drop off).take 4).length = 4 := by
    rw [length_take, length_drop]
    omega
  have hlt : leValue ((buf.drop off).take 4) < 2 ^ 32 := by
    have := leValue_lt ((buf.drop off).take 4)
    rw [hlen] at this
    omega
  have hback := leBytes_leValue ((buf.drop off).take 4)
  rw [hlen] at hback
  unfold le32 le32At
  rw [toNat_ofNat_of_lt' hlt, hback]

/-- A block whose words are all equal is a run of its first word. -/
theorem fillBytes_of_sparseBlock {buf : List UInt8} {n : Nat} (hlen : buf.length = 4 * n)
    (h : sparseBlock (4 * n) buf = true) : fillBytes (le32At buf 0) (4 * n) = buf := by
  have hword : ∀ i < n, le32 (le32At buf 0) = (buf.drop (4 * i)).take 4 := by
    intro i hi
    rw [← le32_le32At (show 4 * i + 4 ≤ buf.length by omega)]
    rcases Nat.eq_zero_or_pos i with rfl | hpos
    · rfl
    · unfold sparseBlock at h
      rw [all_eq_true] at h
      have hmem : i ∈ (range (4 * n / 4)).drop 1 := by
        rw [range_eq_range', drop_range', mem_range']
        exact ⟨i - 1, by omega, by omega⟩
      rw [beq_iff_eq.mp (h i hmem)]
  refine ext_getElem (by simp [hlen]) fun i h₁ h₂ => ?_
  have hi := hword (i / 4) (by omega)
  simp only [fillBytes, getElem_map, getElem_range]
  rw [hi, getD_eq_getElem?_getD, getElem?_take_of_lt (Nat.mod_lt _ (by decide)),
    getElem?_drop, Nat.div_add_mod, getElem?_eq_getElem h₂]
  rfl

variable {j : Nat}

/-- The cells of a plain image hold its bytes. -/
theorem bytes_plainCell {file : List UInt8} {c : Cell} (h : plainCell file j = some c) :
    c.bytes = plainBlock file j := by
  unfold plainCell at h
  split at h
  · split at h
    · rename_i hconst
      rw [← Option.some.inj h]
      exact fillBytes_of_sparseBlock (n := 1024) hconst.1 hconst.2
    · rw [← Option.some.inj h]
      rfl
  · cases h

/-! ### The block queued for one block of the file -/

section
variable {file : List UInt8} {fd : Int} {k : Nat}

theorem toNat_len_plainBacked (file : List UInt8) (fd : Int) (k : Nat) :
    (plainBacked file fd k).len.toNat = min 4096 (file.length - k * 4096) := by
  unfold plainBacked
  rw [length_plainBlock, toNat_ofNat', Nat.mod_eq_of_lt (by omega)]

theorem toNat_block_plainBacked (file : List UInt8) (fd : Int) (hk : k < 2 ^ 32) :
    (plainBacked file fd k).block.toNat = k := by
  unfold plainBacked
  rw [toNat_ofNat_of_lt' hk]

/-- The block queued for block `k` puts the right cell there, and no other. -/
theorem image_plainBacked {env : Env} (hfd : env.fd fd = some file) (hk : k < plainCount file)
    (hk32 : k < 2 ^ 32) (j : Nat) :
    (plainBacked file fd k).image env 4096 j = if j = k then plainCell file j else none := by
  have hlen := toNat_len_plainBacked file fd k
  have hblock := toNat_block_plainBacked file fd hk32
  have hk' := lt_plainCount_iff.mp hk
  have hend : (plainBacked file fd k).endBlock 4096 = k + 1 := by
    unfold endBlock numBlocks
    omega
  rcases Nat.lt_trichotomy j k with hj | rfl | hj
  · rw [if_neg (by omega), image_of_lt (by omega)]
  · rw [if_pos rfl, image_of_mem (by omega) (by omega), hblock, Nat.sub_self]
    have hmin : min 4096 ((plainBacked file fd j).len.toNat - 0) = (plainBlock file j).length := by
      rw [length_plainBlock]
      omega
    rw [hmin]
    unfold plainCell plainBacked
    rw [if_pos hk']
    by_cases hconst : ConstantBlock file j
    · simp [if_pos hconst, Env.cell, hconst.1]
    · have hrange : fileRange file (j * 4096 + (0 : Nat)) (plainBlock file j).length
          = some (plainBlock file j) := by
        have hoff : ((j : Int) * 4096 + (0 : Nat)).toNat = j * 4096 := by omega
        unfold fileRange
        rw [hoff, if_pos ⟨by omega, by omega⟩]
        unfold plainBlock
        rw [length_take]
        congr 1
        exact take_eq_take_iff.mpr (by omega)
      simp only [if_neg hconst, Env.cell, hfd, Option.bind_some, hrange]
  · rw [if_neg (by omega), image_of_le (by omega)]

end

/-! ### The list, whatever wraps -/

/-- What holds of the list after `n` blocks, even when a merged length has
wrapped: it is in order, no two of its blocks merge, and a block that is no fill
refers to its own place in the file. -/
structure PlainList (fd : Int) (n : Nat) (blocks : List BackedBlock) : Prop where
  pairwise : blocks.Pairwise fun a b => Before 4096 a b ∧ ¬ Mergeable 4096 a b
  inside : ∀ b ∈ blocks,
    b.block.toNat < n ∧ b.block.toNat * 4096 + b.len.toNat ≤ n * 4096
  source : ∀ b ∈ blocks, (∃ val, b.type = .fill val) ∨ b.type = .fd fd (b.block.toNat * 4096)

namespace PlainList

variable {file : List UInt8} {fd : Int} {n : Nat} {blocks : List BackedBlock}

section

variable (h : PlainList fd n blocks)
include h

theorem ordered : blocks.Pairwise (Before 4096) :=
  h.pairwise.imp fun hab => hab.1

theorem before_plainBacked (hn : n < 2 ^ 32) :
    ∀ b ∈ blocks, Before 4096 b (plainBacked file fd n) := by
  intro b hb
  unfold Before
  rw [toNat_block_plainBacked file fd hn]
  exact (h.inside b hb).2

/-- A block of the list that merges with the next block of the file ends right
before it. -/
theorem end_of_mergeable (hn : n < 2 ^ 32) {b : BackedBlock} (hb : b ∈ blocks)
    (hm : Mergeable 4096 b (plainBacked file fd n)) :
    n * 4096 = b.block.toNat * 4096 + b.len.toNat := by
  have hadj := adjacent_of_mergeable (show 0 < (4096 : UInt32).toNat by decide)
    (h.before_plainBacked hn b hb) hm
  rw [toNat_block_plainBacked file fd hn] at hadj
  exact hadj

/-- Queueing the next block of the file keeps `PlainList`. -/
theorem push (hn : n < 2 ^ 32) :
    PlainList fd (n + 1) (pushBlock 4096 blocks (plainBacked file fd n)) where
  pairwise := by
    refine pairwise_pushBlock_of h.pairwise (fun a last hab => hab) fun hlast a ha =>
      ⟨h.before_plainBacked hn a ha, fun hm => ?_⟩
    -- Only the last block reaches up to the new one, and it does not merge.
    obtain ⟨front, last, rfl⟩ := (eq_nil_or_concat' blocks).resolve_left
      (ne_nil_of_mem ha)
    rcases mem_append.mp ha with ha' | ha'
    · have hbefore := ((pairwise_append.mp h.pairwise).2.2 a ha' last (by simp)).1
      have hend := h.end_of_mergeable hn ha hm
      have hlt := (h.inside last (by simp)).1
      unfold Before at hbefore
      omega
    · rw [mem_singleton] at ha'
      subst ha'
      exact hlast a (by simp) hm
  inside := by
    have hlen := toNat_len_plainBacked file fd n
    have hblock := toNat_block_plainBacked file fd hn
    refine forall_mem_pushBlock (fun b hb => ?_) ⟨by omega, by omega⟩ fun last hlast hm => ?_
    · have := h.inside b hb
      omega
    · have hmem := mem_of_getLast? hlast
      have hend := h.end_of_mergeable hn hmem hm
      have hle : (merged last (plainBacked file fd n)).len.toNat
          ≤ last.len.toNat + (plainBacked file fd n).len.toNat := by
        exact Nat.mod_le _ _
      show last.block.toNat < n + 1 ∧ last.block.toNat * 4096 + _ ≤ _
      omega
  source := by
    refine forall_mem_pushBlock h.source ?_ fun last hlast _ =>
      h.source last (mem_of_getLast? hlast)
    rw [toNat_block_plainBacked file fd hn]
    unfold plainBacked
    split
    · exact .inl ⟨_, rfl⟩
    · exact .inr rfl

end

end PlainList

theorem plainList_plainBlocks (file : List UInt8) (fd : Int) (n : Nat) (hn : n ≤ 2 ^ 32) :
    PlainList fd n (plainBlocks file fd n) := by
  induction n with
  | zero =>
    exact { pairwise := List.Pairwise.nil
            inside := fun b hb => absurd hb (by simp [plainBlocks])
            source := fun b hb => absurd hb (by simp [plainBlocks]) }
  | succ n ih => exact (ih (by omega)).push (by omega)

/-! ### Runs and merged lengths -/

section
variable {file : List UInt8} {fd : Int} {env : Env} {b : BackedBlock}

/-- A block that has the cell of the file at `j`: it holds all of it, and it is a fill of the
word of a constant block, or a range of the file. -/
theorem kind_of_image (hfd : env.fd fd = some file)
    (hsrc : (∃ val, b.type = .fill val) ∨ b.type = .fd fd (b.block.toNat * 4096))
    (hle : b.block.toNat ≤ j) (hlt : j < b.endBlock 4096)
    (himg : b.image env 4096 j = plainCell file j) :
    min 4096 (b.len.toNat - (j - b.block.toNat) * 4096) = (plainBlock file j).length ∧
      ((ConstantBlock file j ∧ b.type = .fill (plainWord file j)) ∨
        (¬ ConstantBlock file j ∧ b.type = .fd fd (b.block.toNat * 4096))) := by
  rw [image_of_mem hle hlt] at himg
  unfold plainCell at himg
  split at himg
  · rcases hsrc with ⟨val, hval⟩ | hfdsrc
    · split at himg
      · rename_i hconst
        simp only [hval, Env.cell, Option.some.injEq, Cell.fill.injEq] at himg
        exact ⟨himg.2.trans hconst.1.symm, .inl ⟨hconst, by rw [hval, himg.1]⟩⟩
      · simp [hval, Env.cell] at himg
    · -- A range of the file is never a fill.
      simp only [hfdsrc, Env.cell, hfd] at himg
      split at himg
      · rename_i bytes hbytes
        split at himg
        · simp at himg
        · rename_i hconst
          rw [← length_fileRange hbytes, Cell.raw.inj (Option.some.inj himg)]
          exact ⟨rfl, .inr ⟨hconst, hfdsrc⟩⟩
      · split at himg <;> simp at himg
  · cases himg

variable {blocks : List BackedBlock} {n : Nat}

section

variable (hfd : env.fd fd = some file)
include hfd

/-- A merged length that reaches `2 ^ 32` comes from a long run. -/
theorem longRun_of_overflow (h : PlainList fd n blocks) (hn : n < 2 ^ 32)
    (himg : ∀ j < n, imageOf env 4096 blocks j = plainCell file j) {last : BackedBlock}
    (hlast : last ∈ blocks) (hm : Mergeable 4096 last (plainBacked file fd n))
    (hover : 2 ^ 32 ≤ last.len.toNat + (plainBacked file fd n).len.toNat) :
    LongRun file last.block.toNat := by
  have hend := h.end_of_mergeable hn hlast hm
  have hlen := toNat_len_plainBacked file fd n
  have hlt := last.len.toNat_lt
  have hnum : last.endBlock 4096 = n := by
    unfold endBlock numBlocks
    omega
  have hfull : (n + 1) * 4096 ≤ file.length := by omega
  have hn' : n + 1 = last.block.toNat + 2 ^ 20 := by omega
  have hkind : ∀ j, last.block.toNat ≤ j → j < n → _ := fun j h₁ h₂ =>
    (kind_of_image hfd (h.source last hlast) h₁ (by rwa [hnum]) (by
      rw [← himg j h₂, imageOf_of_mem (by decide) h.ordered hlast h₁ (by rwa [hnum])])).2
  -- The new block continues the last one, so it is of the same kind.
  have hnew := eq_advance_of_continues hm.2
  unfold plainBacked at hnew
  refine ⟨hn' ▸ hfull, ?_⟩
  rcases h.source last hlast with ⟨val, hval⟩ | hfdsrc
  · refine .inl ⟨val, fun j h₁ h₂ => ?_⟩
    rcases Nat.lt_or_ge j n with hj | hj
    · rcases hkind j h₁ hj with ⟨hconst, htype⟩ | ⟨-, htype⟩
      · exact ⟨hconst, fill.inj (htype.symm.trans hval)⟩
      · cases hval.symm.trans htype
    · obtain rfl : j = n := by omega
      rw [hval] at hnew
      split at hnew
      · rename_i hconst
        exact ⟨hconst, fill.inj hnew⟩
      · exact absurd hnew (by simp [advance])
  · refine .inr fun j h₁ h₂ => ?_
    rcases Nat.lt_or_ge j n with hj | hj
    · rcases hkind j h₁ hj with ⟨-, htype⟩ | ⟨hconst, -⟩
      · cases hfdsrc.symm.trans htype
      · exact hconst
    · obtain rfl : j = n := by omega
      rw [hfdsrc] at hnew
      split at hnew
      · exact absurd hnew (by simp [advance])
      · assumption

/-- Without a long run, the list has the cells of the file. -/
theorem imageOf_plainBlocks (hrun : ¬ ∃ i, LongRun file i) (n : Nat) (hn : n ≤ plainCount file)
    (hn32 : n ≤ 2 ^ 32) (j : Nat) :
    imageOf env 4096 (plainBlocks file fd n) j = if j < n then plainCell file j else none := by
  induction n generalizing j with
  | zero => rfl
  | succ n ih =>
    have ih := ih (by omega) (by omega)
    have hlist := plainList_plainBlocks file fd n (by omega)
    have hpush := imageOf_pushBlock (show 0 < (4096 : UInt32).toNat by decide) env
      (hlist.before_plainBacked (by omega)) (fun last hlast hm => by
        by_contra hover
        refine hrun ⟨_, longRun_of_overflow hfd hlist (by omega) (fun j hj => ?_)
          (mem_of_getLast? hlast) hm (by omega)⟩
        rw [ih j, if_pos hj]) j
    refine hpush.trans ?_
    show (imageOf env 4096 _ j).or ((plainBacked file fd n).image env 4096 j) = _
    rw [ih j, image_plainBacked hfd (by omega) (by omega)]
    rcases Nat.lt_trichotomy j n with hj | rfl | hj
    · rw [if_pos hj, if_neg (by omega), if_pos (by omega), Option.or_none]
    · rw [if_neg (by omega), if_pos rfl, if_pos (by omega), Option.none_or]
    · rw [if_neg (by omega), if_neg (by omega), if_neg (by omega), Option.none_or]

/-- Where the kinds of two cells agree, the source of the block behind continues
that of the block in front. -/
theorem continues_of_kind {a : BackedBlock} {i : Nat} (h : PlainList fd n blocks) (ha : a ∈ blocks)
    (hb : b ∈ blocks) (hai : a.block.toNat ≤ i ∧ i < a.endBlock 4096)
    (hbj : b.block.toNat ≤ j ∧ j < b.endBlock 4096) (hia : a.image env 4096 i = plainCell file i)
    (hjb : b.image env 4096 j = plainCell file j)
    (hend : a.block.toNat * 4096 + a.len.toNat = b.block.toNat * 4096)
    (hkind : (∃ val, (ConstantBlock file i ∧ plainWord file i = val) ∧
        (ConstantBlock file j ∧ plainWord file j = val)) ∨
      (¬ ConstantBlock file i ∧ ¬ ConstantBlock file j)) : continues a b.type = true := by
  have hakind := (kind_of_image hfd (h.source a ha) hai.1 hai.2 hia).2
  have hbkind := (kind_of_image hfd (h.source b hb) hbj.1 hbj.2 hjb).2
  unfold continues
  rcases hkind with ⟨val, hi, hj⟩ | ⟨hi, hj⟩
  · rw [(hakind.resolve_right fun hno => hno.1 hi.1).2,
      (hbkind.resolve_right fun hno => hno.1 hj.1).2, hi.2, hj.2]
    exact beq_self_eq_true val
  · rw [(hakind.resolve_left fun hno => hi hno.1).2,
      (hbkind.resolve_left fun hno => hj hno.1).2]
    simp only [beq_self_eq_true, Bool.true_and, beq_iff_eq]
    omega

omit hfd in
/-- Two members of a list stand in its order, one way or the other. -/
theorem rel_or_rel {α : Type} {R : α → α → Prop} {xs : List α} (h : xs.Pairwise R) {a b : α}
    (ha : a ∈ xs) (hb : b ∈ xs) (hne : a ≠ b) : R a b ∨ R b a :=
  have : Std.Symm fun a b => R a b ∨ R b a := ⟨fun _ _ => Or.symm⟩
  have hsymm : xs.Pairwise fun a b => R a b ∨ R b a := h.imp .inl
  hsymm.forall ha hb hne

/-- A list that has all cells of the file has room for no long run: the block
that covers the start of the run ends inside it, and would have been merged with
the one that goes on there. -/
theorem not_longRun (h : PlainList fd n blocks)
    (himg : ∀ j, imageOf env 4096 blocks j = plainCell file j) (i : Nat) : ¬ LongRun file i := by
  rintro ⟨hlen, hkind⟩
  have hcover : ∀ j, i ≤ j → j < i + 2 ^ 20 → ∃ b ∈ blocks,
      (b.block.toNat ≤ j ∧ j < b.endBlock 4096) := by
    intro j h₁ h₂
    have hsome : (plainCell file j).isSome := by
      unfold plainCell
      rw [if_pos (by omega)]
      rfl
    obtain ⟨c, hc⟩ := Option.isSome_iff_exists.mp hsome
    obtain ⟨b, hb, hle, hlt, _⟩ := exists_mem_of_imageOf ((himg j).trans hc)
    exact ⟨b, hb, hle, hlt⟩
  have hof : ∀ b ∈ blocks, ∀ j, b.block.toNat ≤ j ∧ j < b.endBlock 4096 →
      b.image env 4096 j = plainCell file j := fun b hb j hj => by
    rw [← himg j, imageOf_of_mem (by decide) h.ordered hb hj.1 hj.2]
  -- A block that covers a cell of the run reaches to the end of that cell.
  have hfull : ∀ b ∈ blocks, ∀ j, i ≤ j → j < i + 2 ^ 20 →
      b.block.toNat ≤ j ∧ j < b.endBlock 4096 →
      (j + 1) * 4096 ≤ b.block.toNat * 4096 + b.len.toNat := fun b hb j h₁ h₂ hj => by
    have hsize := (kind_of_image hfd (h.source b hb) hj.1 hj.2 (hof b hb j hj)).1
    have hfits : (j + 1) * 4096 ≤ file.length :=
      Nat.le_trans (Nat.mul_le_mul_right 4096 h₂) hlen
    rw [length_plainBlock] at hsize
    clear hlen h₂
    omega
  obtain ⟨a, ha, hai⟩ := hcover i (by omega) (by omega)
  have hnum := (numBlocks_le_iff (show 0 < 4096 by decide) a _).mp (Nat.le_refl _)
  have hae : a.endBlock 4096 = a.block.toNat + a.numBlocks 4096 := rfl
  rcases Nat.lt_or_ge (a.endBlock 4096) (i + 2 ^ 20) with he | he
  · obtain ⟨b, hb, hbe⟩ := hcover (a.endBlock 4096) (by omega) he
    have haend := hfull a ha (a.endBlock 4096 - 1) (by omega) (by omega) (by omega)
    have hne : a ≠ b := fun hab => by
      subst hab
      omega
    rcases rel_or_rel h.pairwise ha hb hne with ⟨hbefore, hnot⟩ | ⟨hbefore, _⟩
    · have hbb := hbefore.endBlock_le (by decide)
      refine hnot ⟨?_, continues_of_kind hfd h ha hb hai hbe (hof a ha _ hai) (hof b hb _ hbe)
        (by omega) ?_⟩
      · apply UInt32.toNat_inj.mp
        have := b.block.toNat_lt
        have h4096 : (4096 : UInt32).toNat = 4096 := rfl
        rw [UInt32.toNat_add, UInt32.toNat_div, h4096]
        omega
      · exact hkind.imp
          (fun ⟨val, hval⟩ => ⟨val, hval i (by omega) (by omega), hval _ (by omega) he⟩)
          (fun hno => ⟨hno i (by omega) (by omega), hno _ (by omega) he⟩)
    · have := hbefore.endBlock_le (by decide)
      omega
  · -- One block cannot hold the whole run.
    have hfit := hfull a ha (i + 2 ^ 20 - 1) (by omega) (by omega) (by omega)
    have halt := a.len.toNat_lt
    omega

end

end

/-! ### The loop -/

section
variable {file : List UInt8} {fd : Int} {s : SparseFile}

theorem readNormalLoop_done (fuel offset : Nat) (block : UInt32) :
    readNormalLoop file fd fuel s 0 offset block = .ok s := by
  cases fuel <;> rfl

/-- The iteration for block `k` reads the block and queues it. -/
theorem readNormalLoop_eq {k : Nat} (hk : k < plainCount file) (hbs : s.blockSize = 4096)
    (fuel : Nat) :
    readNormalLoop file fd (fuel + 1) s (file.length - k * 4096) (k * 4096) (UInt32.ofNat k)
      = (do
          let list ← orFault (queueBb s.backedBlockList (plainBacked file fd k))
          readNormalLoop file fd fuel { s with backedBlockList := list }
            (file.length - (k + 1) * 4096) ((k + 1) * 4096) (UInt32.ofNat (k + 1))) := by
  have hk' := lt_plainCount_iff.mp hk
  have hsize : s.blockSize.toNat = 4096 := by rw [hbs]; rfl
  have hread : min (file.length - k * 4096) 4096 = (plainBlock file k).length := by
    rw [length_plainBlock]
    omega
  have hbuf : readAll file (k * 4096) (plainBlock file k).length
      = .ok (plainBlock file k, k * 4096 + (plainBlock file k).length) := by
    unfold readAll
    rw [if_pos (.inr (by omega))]
    congr 2
    unfold plainBlock
    rw [length_take]
    exact take_eq_take_iff.mpr (by omega)
  have hrem : file.length - k * 4096 - (plainBlock file k).length
      = file.length - (k + 1) * 4096 := by
    omega
  have hblock : ofNat k + 1 = ofNat (k + 1) := by
    rw [ofNat_add]
    rfl
  -- Behind a partial block nothing is left to read, and the offset is not used.
  have hoffset : ∀ s', readNormalLoop file fd fuel s' (file.length - (k + 1) * 4096)
        (k * 4096 + (plainBlock file k).length) (ofNat (k + 1))
      = readNormalLoop file fd fuel s' (file.length - (k + 1) * 4096) ((k + 1) * 4096)
        (ofNat (k + 1)) := by
    intro s'
    rcases Nat.eq_zero_or_pos (file.length - (k + 1) * 4096) with hz | hpos
    · rw [hz, readNormalLoop_done, readNormalLoop_done]
    · rw [show k * 4096 + (plainBlock file k).length = (k + 1) * 4096 by
        omega]
  rw [readNormalLoop, if_neg (by omega)]
  simp only [hsize, hread, hbuf, bind, Except.bind, hrem, hblock, hoffset]
  have hadd : (if (plainBlock file k).length = 4096 ∧ sparseBlock 4096 (plainBlock file k) = true
      then sparseFileAddFill s (le32At (plainBlock file k) 0)
        (ofNat (plainBlock file k).length) (ofNat k)
      else sparseFileAddFd s fd (k * 4096 : Nat)
        (ofNat (plainBlock file k).length) (ofNat k))
      = (do
        let list ← queueBb s.backedBlockList (plainBacked file fd k)
        return { s with backedBlockList := list }) := by
    by_cases hconst : ConstantBlock file k
    · rw [if_pos (show _ ∧ _ from hconst), plainBacked, if_pos hconst]
      rfl
    · rw [if_neg (show ¬ (_ ∧ _) from hconst), plainBacked, if_neg hconst]
      rfl
  rw [hadd]
  cases queueBb s.backedBlockList (plainBacked file fd k) <;> rfl

/-- The loop from block `k` on, over `m` blocks of the file. -/
theorem readNormalLoop_run (m k : Nat) (hk : k + m ≤ plainCount file) (hk32 : k + m ≤ 2 ^ 32)
    (hbs : s.blockSize = 4096) (hblocks : s.blocks = plainBlocks file fd k) (fuel : Nat) :
    ∃ s' : SparseFile,
      readNormalLoop file fd (fuel + m) s (file.length - k * 4096) (k * 4096) (UInt32.ofNat k)
        = readNormalLoop file fd fuel s' (file.length - (k + m) * 4096) ((k + m) * 4096)
            (UInt32.ofNat (k + m)) ∧
      s'.blockSize = 4096 ∧ s'.blocks = plainBlocks file fd (k + m) := by
  induction m generalizing k s with
  | zero => exact ⟨_, rfl, hbs, hblocks⟩
  | succ m ih =>
    have hlist := plainList_plainBlocks file fd k (by omega)
    have hlt : ∀ b ∈ s.blocks, b.block < (plainBacked file fd k).block := by
      intro b hb
      rw [hblocks] at hb
      rw [lt_iff_toNat_lt, toNat_block_plainBacked file fd (by omega)]
      exact (hlist.inside b hb).1
    obtain ⟨list, hlist, hpushed⟩ := queueBb_sparseFile (by rw [hbs]; decide) hlt
    obtain ⟨s', hrun, hbs', hblocks'⟩ := @ih { s with backedBlockList := list } (k + 1)
      (by omega) (by omega) (hpushed.blockSize.trans hbs)
      (hpushed.blocks.trans (by rw [hbs, hblocks]; rfl))
    rw [show k + (m + 1) = k + 1 + m by omega]
    refine ⟨s', ?_, hbs', hblocks'⟩
    rw [← Nat.add_assoc, readNormalLoop_eq (by omega) hbs, hlist]
    exact hrun

/-- `sparse_file_read_normal` on a file of at most `2 ^ 32` blocks. -/
theorem sparseFileReadNormal_eq (file : List UInt8) (fd : Int) (h : plainCount file ≤ 2 ^ 32) :
    ∃ s', sparseFileReadNormal file fd (sparseFileNew 4096 file.length) = .ok s' ∧
      s'.blockSize = 4096 ∧ s'.blocks = plainBlocks file fd (plainCount file) := by
  have hcount : plainCount file ≤ file.length ∧ file.length ≤ plainCount file * 4096 := by
    unfold plainCount
    omega
  obtain ⟨s', hrun, hbs, hblocks⟩ := @readNormalLoop_run file fd
    (sparseFileNew 4096 file.length) (plainCount file) 0 (by omega) (by omega) rfl rfl
    (file.length - plainCount file)
  rw [Nat.zero_add, Nat.sub_add_cancel hcount.1, Nat.sub_eq_zero_of_le hcount.2,
    readNormalLoop_done] at hrun
  exact ⟨s', hrun, hbs, by rw [hblocks, Nat.zero_add]⟩

/-- The first block of the list starts at number 0. -/
theorem exists_head_plainBlocks (file : List UInt8) (fd : Int) (n : Nat) :
    ∃ head tail, plainBlocks file fd (n + 1) = head :: tail ∧ head.block = 0 := by
  induction n with
  | zero => exact ⟨_, [], rfl, rfl⟩
  | succ n ih =>
    obtain ⟨head, tail, hcons, hzero⟩ := ih
    rw [plainBlocks]
    rcases eq_nil_or_concat' tail with rfl | ⟨front, last, rfl⟩
    · rw [hcons, show [head] = [] ++ [head] from rfl, pushBlock_append_singleton]
      split
      · exact ⟨_, [], rfl, hzero⟩
      · exact ⟨head, _, rfl, hzero⟩
    · rw [hcons, show head :: (front ++ [last]) = (head :: front) ++ [last] from rfl,
        pushBlock_append_singleton]
      split
      · exact ⟨head, _, rfl, hzero⟩
      · exact ⟨head, _, rfl, hzero⟩

/-- Behind `2 ^ 32` blocks the block number is 0 again, and the process ends. -/
theorem sparseFileReadNormal_fault (file : List UInt8) (fd : Int) (h : 2 ^ 32 < plainCount file) :
    ∃ f, sparseFileReadNormal file fd (sparseFileNew 4096 file.length) = .error (.fault f) := by
  have hcount : plainCount file ≤ file.length := by
    unfold plainCount
    omega
  obtain ⟨fuel, hfuel⟩ : ∃ fuel, file.length = fuel + 1 + 2 ^ 32 :=
    ⟨file.length - 2 ^ 32 - 1, by omega⟩
  obtain ⟨s', hrun, hbs, hblocks⟩ := @readNormalLoop_run file fd
    (sparseFileNew 4096 file.length) (2 ^ 32) 0 (by omega) (by omega) rfl rfl (fuel + 1)
  obtain ⟨head, tail, hcons, hzero⟩ := exists_head_plainBlocks file fd (2 ^ 32 - 1)
  have hblock : (plainBacked file fd (2 ^ 32)).block = 0 := rfl
  have hhead : s'.backedBlockList.dataBlocks = head :: tail := by
    rw [← hcons]
    exact hblocks
  obtain ⟨f, hfault⟩ := queueBb_same_head hhead (hblock.trans hzero.symm)
    (fun b _ => by exact UInt32.not_lt_zero)
  refine ⟨f, ?_⟩
  rw [Nat.zero_add, ← hfuel, readNormalLoop_eq (by omega) hbs, hfault] at hrun
  exact hrun

end

/-! ### Lossless import -/

/-- The sparse file has exactly the cells of the plain image `file` behind the
descriptor `fd`, and with them its bytes. -/
def Lossless (file : List UInt8) (fd : Int) (s : SparseFile) : Prop :=
  ∀ env : Env, env.fd fd = some file → ∀ j,
    s.image env j = plainCell file j ∧ ((s.image env j).map Cell.bytes).getD [] = plainBlock file j

theorem lossless_of_cells {file : List UInt8} {fd : Int} {s : SparseFile}
    (h : ∀ env : Env, env.fd fd = some file → ∀ j, s.image env j = plainCell file j) :
    Lossless file fd s := by
  intro env hfd j
  refine ⟨h env hfd j, ?_⟩
  rw [h env hfd j]
  cases hc : plainCell file j with
  | some c => exact bytes_plainCell hc
  | none =>
    -- Behind the end of the file there are no bytes.
    unfold plainCell at hc
    split at hc
    · cases hc
    · unfold plainBlock
      rw [drop_eq_nil_of_le (by omega)]
      rfl

/-- `sparse_file_read_normal` builds a sparse file with the cells and the bytes
of the file exactly when the file has at most `2 ^ 44` bytes and no run of
`2 ^ 20` full blocks that all merge. -/
theorem readNormal_lossless_iff (file : List UInt8) (fd : Int) :
    (∃ s, sparseFileReadNormal file fd (sparseFileNew 4096 file.length) = .ok s ∧
        Lossless file fd s) ↔
      file.length ≤ 2 ^ 44 ∧ ¬ ∃ i, LongRun file i := by
  have hcount : plainCount file ≤ 2 ^ 32 ↔ file.length ≤ 2 ^ 44 := by
    unfold plainCount
    omega
  rw [← hcount]
  constructor
  · rintro ⟨s, hread, hloss⟩
    have hle : plainCount file ≤ 2 ^ 32 := by
      by_contra hover
      obtain ⟨f, hfault⟩ := sparseFileReadNormal_fault file fd (by omega)
      rw [hfault] at hread
      cases hread
    refine ⟨hle, fun ⟨i, hrun⟩ => ?_⟩
    obtain ⟨s', hread', hbs, hblocks⟩ := sparseFileReadNormal_eq file fd hle
    obtain rfl : s' = s := Except.ok.inj (hread'.symm.trans hread)
    have hfd : ({ mem := fun _ => 0, file := fun _ => none, fd := fun _ => some file } : Env).fd fd
        = some file := rfl
    refine not_longRun hfd (plainList_plainBlocks file fd _ hle) (fun j => ?_) i hrun
    rw [← (hloss _ hfd j).1]
    unfold SparseFile.image
    rw [hbs, hblocks]
    rfl
  · rintro ⟨hle, hrun⟩
    obtain ⟨s, hread, hbs, hblocks⟩ := sparseFileReadNormal_eq file fd hle
    refine ⟨s, hread, lossless_of_cells fun env hfd j => ?_⟩
    unfold SparseFile.image
    rw [hbs, hblocks]
    refine (imageOf_plainBlocks hfd hrun _ (Nat.le_refl _) hle j).trans ?_
    split
    · rfl
    · rename_i hj
      unfold plainCell
      rw [if_neg (fun h => hj (lt_plainCount_iff.mpr h))]

/-! ### Four gibibytes of zeros -/

theorem le32At_zeros (n off : Nat) : le32At (zeros n) off = 0 := by
  have hzero : ∀ m, leValue (replicate m 0) = 0 := by
    intro m
    induction m with
    | zero => rfl
    | succ m ih => rw [replicate_succ, leValue, ih]; rfl
  unfold le32At zeros
  rw [drop_replicate, take_replicate, hzero]
  rfl

/-- A block of zeros is queued as a fill with zeros. -/
theorem plainBacked_zeros (fd : Int) {n k : Nat} (h : (k + 1) * 4096 ≤ n) :
    plainBacked (zeros n) fd k = { block := UInt32.ofNat k, len := 4096, type := .fill 0 } := by
  have hblock : plainBlock (zeros n) k = zeros 4096 := by
    unfold plainBlock zeros
    rw [drop_replicate, take_replicate]
    congr 1
    omega
  have hconst : ConstantBlock (zeros n) k := by
    unfold ConstantBlock
    rw [hblock]
    refine ⟨length_zeros _, all_eq_true.mpr fun i _ => ?_⟩
    rw [le32At_zeros, le32At_zeros]
    rfl
  unfold plainBacked plainWord
  rw [if_pos hconst, hblock, length_zeros]
  rfl

/-- The blocks of a file of zeros merge into one fill, whose length wraps. -/
theorem plainBlocks_zeros (fd : Int) (k : Nat) (hk : k < 2 ^ 20) :
    plainBlocks (zeros (2 ^ 32)) fd (k + 1)
      = [{ block := 0, len := UInt32.ofNat ((k + 1) * 4096), type := .fill 0 }] := by
  induction k with
  | zero =>
    rw [plainBlocks, plainBlocks, plainBacked_zeros fd (by omega)]
    rfl
  | succ k ih =>
    have hfits : (k + 1 + 1) * 4096 ≤ 2 ^ 32 := by omega
    rw [plainBlocks, ih (by omega), plainBacked_zeros fd hfits,
      ← nil_append [_], pushBlock_append_singleton, if_pos]
    · have hlen : ofNat ((k + 1 + 1) * 4096) = ofNat ((k + 1) * 4096) + 4096 := by
        rw [Nat.add_mul (k + 1) 1, ofNat_add]
        rfl
      rw [hlen]
      rfl
    · refine ⟨?_, rfl⟩
      apply UInt32.toNat_inj.mp
      have h4096 : (4096 : UInt32).toNat = 4096 := rfl
      simp only [UInt32.zero_add, UInt32.toNat_div, toNat_ofNat', h4096]
      omega

/-- The import of `2 ^ 32` zeros backs nothing: the image has no cell at all, and
the file has one at block 0. -/
theorem readNormal_zeros {file : List UInt8} (hfile : file = zeros (2 ^ 32)) (fd : Int) :
    ∃ s, sparseFileReadNormal file fd (sparseFileNew 4096 file.length) = .ok s ∧
      (∀ env j, s.image env j = none) ∧ plainCell file 0 ≠ none := by
  have hlen : file.length = 2 ^ 32 := by rw [hfile, length_zeros]
  have hcount : plainCount file = 2 ^ 20 - 1 + 1 := by
    unfold plainCount
    omega
  obtain ⟨s, hread, hbs, hblocks⟩ := sparseFileReadNormal_eq file fd (by omega)
  refine ⟨s, hread, fun env j => ?_, ?_⟩
  · unfold SparseFile.image
    rw [hblocks, hbs, hcount, hfile, plainBlocks_zeros fd _ (by omega)]
    exact imageOf_eq_none (forall_mem_singleton.mpr (Nat.zero_le j))
  · unfold plainCell
    rw [if_pos (by omega)]
    exact Option.some_ne_none _

/-- A file of `2 ^ 32` zeros. -/
@[irreducible] def fourGiBFile : List UInt8 := zeros (2 ^ 32)

theorem readNormal_fourGiBFile_lost :
    ∃ s, sparseFileReadNormal fourGiBFile 3 (sparseFileNew 4096 fourGiBFile.length) = .ok s ∧
      (∀ env j, s.image env j = none) ∧ plainCell fourGiBFile 0 ≠ none :=
  readNormal_zeros (by rw [fourGiBFile]) 3

end AndroidCore.Libsparse
