import AndroidCore.Lib.CountP
import Mathlib.Tactic.Ring

/-!
# `AndroidCore.Lib.Bitmap`: a bitmap in words of 32 bits

Bit `n` of a bitmap is bit `n % 32` of its word `n / 32`. `setAt` and `clearAt` change one
bit, given by its word and its place in the word, as the code of a bitmap does; `bit_setAt`
and `bit_clearAt` say what they do to every bit, and `countBelow_setAt` and
`countBelow_clearAt` what they do to the number of set bits.

A search looks for the first word that is not zero, and then for the lowest bit of it.
`firstWord_spec` is the result: the search finds the lowest set bit.
-/

namespace AndroidCore.Lib.Bitmap

open List

/-- The bit `n` of a bitmap. -/
def bit (m : List (BitVec 32)) (n : Nat) : Bool := (m.getD (n / 32) 0).getLsbD (n % 32)

/-- Sets the bit `b` of the word `i`. -/
def setAt (m : List (BitVec 32)) (i b : Nat) : List (BitVec 32) :=
  m.set i (m.getD i 0 ||| 1#32 <<< b)

/-- Clears the bit `b` of the word `i`. -/
def clearAt (m : List (BitVec 32)) (i b : Nat) : List (BitVec 32) :=
  m.set i (m.getD i 0 &&& ~~~(1#32 <<< b))

/-- The number of set bits below `max`. -/
def countBelow (m : List (BitVec 32)) (max : Nat) : Nat := (List.range max).countP (bit m)

/-- The first word that is not zero, from the word `i` on. -/
def firstWord (m : List (BitVec 32)) (i : Nat) : Option Nat :=
  ((m.drop i).findIdx? (· ≠ 0)).map (i + ·)

/-- One more than the index of the lowest set bit; 0 for the word 0. -/
def ffs (word : BitVec 32) : Nat :=
  match (List.range 32).find? word.getLsbD with
  | some b => b + 1
  | none => 0

variable {b i max : Nat}

theorem getLsbD_one_shiftLeft {k : Nat} (hk : k < 32) :
    (1#32 <<< b).getLsbD k = decide (k = b) := by
  rw [Bool.eq_iff_iff]
  simp only [BitVec.getLsbD_shiftLeft, BitVec.getLsbD_one, Bool.and_eq_true, decide_eq_true_eq,
    Bool.not_eq_true', decide_eq_false_iff_not]
  omega

variable {m : List (BitVec 32)}

theorem getD_set {j : Nat} {w : BitVec 32} (hi : i < m.length) :
    (m.set i w).getD j 0 = if j = i then w else m.getD j 0 := by
  rw [getD_eq_getElem?_getD, getD_eq_getElem?_getD, getElem?_set]
  by_cases hij : i = j
  · rw [if_pos hij, if_pos hij.symm, if_pos hi]
    rfl
  · rw [if_neg hij, if_neg (Ne.symm hij)]

section
variable (hi : i < m.length) (hb : b < 32)
include hi hb

/-- A word that changes at the bit `b` only. -/
theorem bit_set {w : BitVec 32} {v : Bool}
    (hw : ∀ k < 32, w.getLsbD k = if k = b then v else (m.getD i 0).getLsbD k) (k : Nat) :
    bit (m.set i w) k = if k = i * 32 + b then v else bit m k := by
  unfold bit
  rw [getD_set hi]
  by_cases hword : k / 32 = i
  · rw [if_pos hword, hw _ (Nat.mod_lt _ (by decide)), hword]
    congr 1
    rw [eq_iff_iff]
    omega
  · have hne : k ≠ i * 32 + b := by omega
    rw [if_neg hword, if_neg hne]

theorem bit_setAt (k : Nat) : bit (setAt m i b) k = if k = i * 32 + b then true else bit m k := by
  refine bit_set hi hb ?_ k
  intro k hk
  rw [BitVec.getLsbD_or, getLsbD_one_shiftLeft hk]
  by_cases hkb : k = b <;> simp [hkb]

theorem bit_clearAt (k : Nat) :
    bit (clearAt m i b) k = if k = i * 32 + b then false else bit m k := by
  refine bit_set hi hb ?_ k
  intro k hk
  rw [BitVec.getLsbD_and, BitVec.getLsbD_not, getLsbD_one_shiftLeft hk]
  by_cases hkb : k = b <;> simp [hkb, hk]

/-- A bit that is cleared below `max` counts one less. -/
theorem countBelow_clearAt (hset : bit m (i * 32 + b) = true) (hmax : i * 32 + b < max) :
    countBelow (clearAt m i b) max + 1 = countBelow m max := by
  apply countP_add_one nodup_range (mem_range.mpr hmax) hset
  · rw [bit_clearAt hi hb, if_pos rfl]
  · intro k _ hne
    rw [bit_clearAt hi hb, if_neg hne]

/-- A bit that is set below `max` counts one more. -/
theorem countBelow_setAt (hclear : bit m (i * 32 + b) = false) (hmax : i * 32 + b < max) :
    countBelow (setAt m i b) max = countBelow m max + 1 := by
  refine (countP_add_one nodup_range (mem_range.mpr hmax) ?_ hclear ?_).symm
  · rw [bit_setAt hi hb, if_pos rfl]
  · intro k _ hne
    rw [bit_setAt hi hb, if_neg hne]

end

/-- No bit is clear exactly if the count is full. -/
theorem countBelow_eq_iff : countBelow m max = max ↔ ∀ k < max, bit m k = true := by
  have hall : (range max).countP (bit m) = (range max).length ↔ _ :=
    countP_eq_length
  rw [length_range] at hall
  unfold countBelow
  rw [hall]
  simp

theorem countBelow_pos_iff : 0 < countBelow m max ↔ ∃ k < max, bit m k = true := by
  unfold countBelow
  simp

/-- The lowest set bit of a word. -/
theorem ffs_spec {word : BitVec 32} (h : word ≠ 0) :
    ∃ b, ffs word = b + 1 ∧ b < 32 ∧ word.getLsbD b = true ∧
      ∀ k < b, word.getLsbD k = false := by
  unfold ffs
  cases hfind : (range 32).find? word.getLsbD with
  | none =>
    refine absurd ?_ h
    apply BitVec.eq_of_getLsbD_eq
    intro k hk
    have hclear := find?_eq_none.mp hfind k (mem_range.mpr hk)
    exact (Bool.eq_false_iff.mpr hclear).trans BitVec.getLsbD_zero.symm
  | some b =>
    obtain ⟨hset, hmem, hbefore⟩ := find?_range_eq_some.mp hfind
    refine ⟨b, rfl, mem_range.mp hmem, hset, ?_⟩
    intro k hk
    exact Bool.not_eq_eq_eq_not.mp (hbefore k hk)

/-- The search from the first word on: it finds a set bit, and no bit below it is set. -/
theorem firstWord_spec {k : Nat} (hk : bit m k = true) :
    ∃ i b, firstWord m 0 = some i ∧ i < m.length ∧ ffs (m.getD i 0) = b + 1 ∧ b < 32 ∧
      bit m (i * 32 + b) = true ∧ i * 32 + b ≤ k := by
  have hlen : k / 32 < m.length := by
    by_contra hge
    unfold bit at hk
    rw [getD_eq_getElem?_getD, getElem?_eq_none (by omega)] at hk
    exact absurd hk (by simp)
  have hword : ∀ j (hj : j < m.length), m.getD j 0 = m[j] := by
    intro j hj
    rw [getD_eq_getElem?_getD, getElem?_eq_getElem hj]
    rfl
  have hnonzero : m[k / 32] ≠ 0 := by
    intro hzero
    unfold bit at hk
    rw [hword _ hlen, hzero] at hk
    exact absurd hk (by simp)
  cases hfind : m.findIdx? (· ≠ 0) with
  | none =>
    have hall := findIdx?_eq_none_iff.mp hfind (m[k / 32]) (getElem_mem hlen)
    exact absurd (of_decide_eq_false hall) (not_not.mpr hnonzero)
  | some i =>
    obtain ⟨hi, hne, hbefore⟩ := findIdx?_eq_some_iff_getElem.mp hfind
    obtain ⟨b, hffs, hb, hset, hlow⟩ := ffs_spec (of_decide_eq_true hne)
    have hdiv : (i * 32 + b) / 32 = i := by omega
    have hmod : (i * 32 + b) % 32 = b := by omega
    refine ⟨i, b, ?_, hi, ?_, hb, ?_, ?_⟩
    · unfold firstWord
      rw [drop_zero, hfind]
      simp
    · rw [hword i hi]
      exact hffs
    · unfold bit
      rw [hdiv, hmod, hword i hi]
      exact hset
    · -- a word in front of `i` is zero, and a lower bit of the word `i` is clear
      have hle : i ≤ k / 32 := by
        by_contra hlt
        exact hbefore (k / 32) (by omega) (decide_eq_true hnonzero)
      by_contra hgt
      have heq : k / 32 = i := by omega
      have hclear := hlow (k % 32) (by omega)
      unfold bit at hk
      rw [heq, hword i hi, hclear] at hk
      cases hk

end AndroidCore.Lib.Bitmap
