import AndroidCore.Proofs.Libsparse.Image

/-!
# `AndroidCore.Proofs.Libsparse.Rounding`: rounding up in 32 bits

`DIV_ROUND_UP` adds the block size before it divides. On `unsigned int`s that
sum wraps once `len + block_size` passes `2 ^ 32`, and the quotient is then zero
(`divRoundUp_of_not_fits`). `Fits` is the condition under which it does not, and
the C macros agree with `numBlocks`.
-/

namespace AndroidCore.Libsparse

open BackedBlock UInt32

/-- A 64-bit value cut to an `unsigned int`. -/
theorem toNat_ofInt (z : Int) : (UInt32.ofInt z).toNat = (z % 2 ^ 32).toNat := by
  unfold ofInt
  rw [toNat_ofNat']
  omega

theorem ofInt_natCast (n : Nat) : UInt32.ofInt n = UInt32.ofNat n := by
  apply UInt32.toNat_inj.mp
  rw [toNat_ofInt, toNat_ofNat']
  omega

/-- The sum of `DIV_ROUND_UP(bb->len, block_size)` does not wrap. -/
def Fits (blockSize : UInt32) (bb : BackedBlock) : Prop :=
  bb.len.toNat + blockSize.toNat ≤ 2 ^ 32

instance (blockSize : UInt32) (bb : BackedBlock) : Decidable (Fits blockSize bb) :=
  inferInstanceAs (Decidable (_ ≤ _))

section
variable {blockSize : UInt32} (hbs : 0 < blockSize.toNat)
include hbs

/-- The numerator of `DIV_ROUND_UP`, as a number. -/
theorem toNat_divRoundUp (len : UInt32) :
    (divRoundUp len blockSize).toNat
      = (len.toNat + blockSize.toNat - 1) % 2 ^ 32 / blockSize.toNat := by
  unfold divRoundUp
  rw [UInt32.toNat_div, UInt32.toNat_sub, UInt32.toNat_add, toNat_one]
  congr 1
  omega

variable {bb : BackedBlock}

theorem toNat_divRoundUp_of_fits (h : Fits blockSize bb) :
    (divRoundUp bb.len blockSize).toNat = bb.numBlocks blockSize.toNat := by
  unfold Fits at h
  rw [toNat_divRoundUp hbs, Nat.mod_eq_of_lt (by omega)]
  rfl

/-- Past the bound the rounded quotient is zero. -/
theorem divRoundUp_of_not_fits (h : ¬ Fits blockSize bb) : divRoundUp bb.len blockSize = 0 := by
  have hl := bb.len.toNat_lt
  unfold Fits at h
  apply UInt32.toNat_inj.mp
  rw [toNat_divRoundUp hbs]
  exact Nat.div_eq_of_lt (by omega)

theorem toNat_align_of_fits (h : Fits blockSize bb) :
    (align bb.len blockSize).toNat = bb.numBlocks blockSize.toNat * blockSize.toNat := by
  have hle : (bb.len.toNat + blockSize.toNat - 1) / blockSize.toNat * blockSize.toNat
      ≤ bb.len.toNat + blockSize.toNat - 1 := Nat.div_mul_le_self _ _
  unfold align
  rw [UInt32.toNat_mul, toNat_divRoundUp_of_fits hbs h, Nat.mul_comm]
  unfold Fits at h
  exact Nat.mod_eq_of_lt (by unfold numBlocks; omega)

/-- The chunk size in blocks is the number of touched blocks. -/
theorem align_div_of_fits (h : Fits blockSize bb) :
    (align bb.len blockSize / blockSize).toNat = bb.numBlocks blockSize.toNat := by
  rw [UInt32.toNat_div, toNat_align_of_fits hbs h, Nat.mul_div_cancel _ hbs]

/-- The length of a block is at most its length rounded up, and the rounding
adds less than a block. -/
theorem len_le_numBlocks_mul (bb : BackedBlock) :
    bb.len.toNat ≤ bb.numBlocks blockSize.toNat * blockSize.toNat ∧
      bb.numBlocks blockSize.toNat * blockSize.toNat < bb.len.toNat + blockSize.toNat := by
  constructor
  · exact (numBlocks_le_iff hbs bb _).mp (Nat.le_refl _)
  · have hle : (bb.len.toNat + blockSize.toNat - 1) / blockSize.toNat * blockSize.toNat
        ≤ bb.len.toNat + blockSize.toNat - 1 := Nat.div_mul_le_self _ _
    unfold numBlocks
    omega

/-- The zeros `write_sparse_data_chunk` adds. -/
theorem toNat_zeroLen_of_fits (h : Fits blockSize bb) :
    (align bb.len blockSize - bb.len).toNat
      = bb.numBlocks blockSize.toNat * blockSize.toNat - bb.len.toNat := by
  have hle := (len_le_numBlocks_mul hbs bb).1
  rw [UInt32.toNat_sub_of_le _ _ (by
    rw [le_iff_toNat_le, toNat_align_of_fits hbs h]
    exact hle), toNat_align_of_fits hbs h]

/-- The block number behind a block is never past its end, also where it wraps. -/
theorem toNat_blockEnd_le (bb : BackedBlock) :
    (blockEnd blockSize bb).toNat ≤ bb.endBlock blockSize.toNat := by
  unfold blockEnd endBlock
  rw [UInt32.toNat_add, toNat_divRoundUp hbs]
  refine Nat.le_trans (Nat.mod_le _ _) (Nat.add_le_add_left ?_ _)
  exact Nat.div_le_div_right (Nat.mod_le _ _)

theorem toNat_blockEnd_of_fits (h : Fits blockSize bb)
    (hend : bb.endBlock blockSize.toNat < 2 ^ 32) :
    (blockEnd blockSize bb).toNat = bb.endBlock blockSize.toNat := by
  unfold blockEnd
  unfold endBlock at hend ⊢
  rw [UInt32.toNat_add, toNat_divRoundUp_of_fits hbs h, Nat.mod_eq_of_lt hend]

end

end AndroidCore.Libsparse
