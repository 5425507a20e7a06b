import Mathlib.Data.Nat.Bitwise
import Mathlib.Data.Nat.Log

/-!
# `AndroidCore.Lib.PowerOfTwo`: rounding up to a power of two with shifts

Or-ing a number with itself shifted by 1, 2, 4, … sets all bits below its highest one. Each
stage doubles the reach (`Smeared.step`); what comes out is one below a power of
two (`Smeared.eq`).
-/

namespace AndroidCore.Lib

/-- Bit `i` of `y` is set when one of the bits `i, …, i + n - 1` of `x` is. -/
def Smeared (x n y : Nat) : Prop :=
  ∀ i, y.testBit i = true ↔ ∃ j < n, x.testBit (i + j) = true

theorem smeared_one (x : Nat) : Smeared x 1 x := by
  intro i
  constructor
  · exact fun h => ⟨0, Nat.one_pos, h⟩
  · rintro ⟨j, hj, h⟩
    obtain rfl : j = 0 := by omega
    exact h

/-- A stage doubles the reach. -/
theorem Smeared.step {x n y : Nat} (h : Smeared x n y) : Smeared x (n + n) (y ||| y >>> n) := by
  intro i
  rw [Nat.testBit_or, Nat.testBit_shiftRight, Bool.or_eq_true, h i, h (n + i)]
  constructor
  · rintro (⟨j, hj, hbit⟩ | ⟨j, hj, hbit⟩)
    · exact ⟨j, by omega, hbit⟩
    · exact ⟨n + j, by omega, by rwa [show i + (n + j) = n + i + j by omega]⟩
  · rintro ⟨j, hj, hbit⟩
    by_cases hlt : j < n
    · exact .inl ⟨j, hlt, hbit⟩
    · exact .inr ⟨j - n, by omega, by rwa [show n + i + (j - n) = i + j by omega]⟩

/-- With enough reach all bits below the highest one are set. -/
theorem Smeared.eq {x n y : Nat} (h : Smeared x n y) (hx : x < 2 ^ n) (hpos : x ≠ 0) :
    y = 2 ^ (Nat.log 2 x + 1) - 1 := by
  have hlog : x < 2 ^ (Nat.log 2 x + 1) := Nat.lt_pow_succ_log_self (by decide) x
  have hge : 2 ^ Nat.log 2 x ≤ x := Nat.pow_log_le_self 2 hpos
  have htop : x.testBit (Nat.log 2 x) = true := by
    rw [Nat.testBit_eq_decide_div_mod_eq]
    have hdiv : x / 2 ^ Nat.log 2 x = 1 := by
      refine Nat.div_eq_of_lt_le (by omega) ?_
      omega
    rw [hdiv]
    rfl
  have hlt : Nat.log 2 x < n := (Nat.pow_lt_pow_iff_right (a := 2) (by decide)).mp (by omega)
  refine Nat.eq_of_testBit_eq fun i => ?_
  rw [Nat.testBit_two_pow_sub_one, Bool.eq_iff_iff, h i, decide_eq_true_eq]
  constructor
  · rintro ⟨j, -, hbit⟩
    by_contra hgt
    have hsmall : x < 2 ^ (i + j) :=
      hlog.trans_le (Nat.pow_le_pow_right (by decide) (by omega))
    rw [Nat.testBit_lt_two_pow hsmall] at hbit
    cases hbit
  · intro hi
    exact ⟨Nat.log 2 x - i, by omega, by rwa [show i + (Nat.log 2 x - i) = Nat.log 2 x by omega]⟩

end AndroidCore.Lib
