import AndroidCore.Libutils.Unicode
import Mathlib.Data.List.Basic

/-!
# `AndroidCore.Proofs.Libutils.Unicode`: which strings `strncpy16` copies

A `char` keeps the ASCII units, and those whose high byte is the one that the conversion back to
sixteen bits gives (`viaChar_eq_iff`). Every other unit is changed, or ends the copy
(`strncpy16_copies_iff`).
-/

namespace AndroidCore.Libutils.Unicode

open List

theorem viaChar_eq_iff (signed : Bool) (unit : UInt16) :
    viaChar signed unit = unit ↔ unit < 0x80 ∨ if signed then 0xFF80 ≤ unit else unit < 0x100 := by
  have hlt := unit.toNat_lt
  cases signed <;>
    simp only [viaChar, UInt16.lt_iff_toNat_lt, UInt16.le_iff_toNat_le, ← UInt16.toNat_inj,
      apply_ite UInt16.toNat, UInt16.toNat_add, UInt16.toNat_mod, UInt16.reduceToNat,
      Bool.false_eq_true, true_and, false_and, if_true, if_false]
  · omega
  · split <;> omega

/-- The first `n` units and a terminator are stored exactly when a `char` keeps these units. -/
theorem strncpy16_copies_iff (signed : Bool) (src : List UInt16) (n : Nat) (hsrc : 0 ∉ src) :
    src.take n ++ [0] <+: strncpy16 signed src n ↔
      ∀ unit ∈ src.take n, unit < 0x80 ∨ if signed then 0xFF80 ≤ unit else unit < 0x100 := by
  induction src generalizing n with
  | nil => cases n <;> simp [strncpy16]
  | cons unit src ih =>
    obtain ⟨hunit, hsrc⟩ := not_or.mp (mt mem_cons.mpr hsrc)
    cases n with
    | zero => simp [strncpy16]
    | succ n =>
      rw [take_succ_cons, forall_mem_cons, ← viaChar_eq_iff, ← ih n hsrc, cons_append, strncpy16]
      split
      case isTrue hch =>
        -- the low byte is zero and the unit is not, so neither side holds
        simp [hch, hunit, Ne.symm hunit]
      case isFalse => rw [cons_prefix_cons, eq_comm]

theorem strncpy16_copies_iff_ascii : [0x41] ++ [0] <+: strncpy16 true [0x41, 0x42] 1 :=
  (strncpy16_copies_iff true [0x41, 0x42] 1 (by decide)).mpr (by simp)

/-- `U+0100` ends the copy. -/
theorem strncpy16_wide :
    ¬ [0x100, 0] <+: strncpy16 true [0x100] 1 ∧ ¬ [0x100, 0] <+: strncpy16 false [0x100] 1 := by
  decide

end AndroidCore.Libutils.Unicode
