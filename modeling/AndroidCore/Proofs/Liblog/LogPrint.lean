import AndroidCore.Liblog.LogPrint

/-!
# `AndroidCore.Proofs.Liblog.LogPrint`: the magnitude of a number of bytes

The loop that divides by 1024 has the suffix `T` left when the others are used up, and has not
divided for it: a multiple of 2^40 is printed 1024 times too large.
-/

namespace AndroidCore.Liblog

/-- What a suffix stands for. -/
def multiplier : Char → Option Int
  | 'K' => some 1024
  | 'M' => some 1048576
  | 'G' => some 1073741824
  | 'T' => some 1099511627776
  | _ => none

/-- One round on a multiple of 1024. -/
theorem repaint_mul (suffix next : Char) (rest : List Char) (n : Int) :
    repaint suffix (next :: rest) (1024 * n)
      = if 1024 ∣ n then repaint next rest n else (n, suffix) := by
  rw [repaint, Int.mul_tdiv_cancel_left n (by decide)]
  simp [← Int.dvd_iff_tmod_eq_zero]

/-- The number and the suffix that are printed, for a multiple of 1024. -/
theorem repaint_spec {lval : Int} (h : 1024 ∣ lval) :
    ∃ m, multiplier (repaint 'K' ['M', 'G', 'T'] lval).2 = some m ∧
      ((repaint 'K' ['M', 'G', 'T'] lval).1 * m = lval ↔ lval = 0 ∨ ¬ 1099511627776 ∣ lval) := by
  obtain ⟨n₁, rfl⟩ := h
  rw [repaint_mul]
  by_cases h₁ : 1024 ∣ n₁
  · obtain ⟨n₂, rfl⟩ := h₁
    rw [if_pos (Int.dvd_mul_right ..), repaint_mul]
    by_cases h₂ : 1024 ∣ n₂
    · obtain ⟨n₃, rfl⟩ := h₂
      rw [if_pos (Int.dvd_mul_right ..), repaint_mul]
      by_cases h₃ : 1024 ∣ n₃
      · -- the table is at its end, after three divisions
        rw [if_pos h₃]
        exact ⟨_, rfl, by dsimp only [repaint]; omega⟩
      · rw [if_neg h₃]
        exact ⟨_, rfl, by omega⟩
    · rw [if_neg h₂]
      exact ⟨_, rfl, by omega⟩
  · rw [if_neg h₁]
    exact ⟨_, rfl, by omega⟩

/-- A multiple of 1024 is printed with a number and a suffix, and they stand for the value if
and only if it is not a multiple of 2^40. -/
theorem printBytes_magnitude_iff (lval : Int64) (outBufLen : Nat) (text : List Char)
    (hne : lval ≠ 0) (hdvd : 1024 ∣ lval.toInt) (h : printBytes lval outBufLen = some text) :
    ∃ number suffix m, text = decimal number ++ [suffix, 'B'] ∧ multiplier suffix = some m ∧
      (number * m = lval.toInt ↔ ¬ 1099511627776 ∣ lval.toInt) := by
  obtain ⟨m, hm, hiff⟩ := repaint_spec hdvd
  have hzero : lval.toInt ≠ 0 := fun h0 => hne (Int64.toInt_inj.mp h0)
  obtain ⟨_, _, h⟩ := Option.bind_eq_some_iff.mp h
  rw [if_pos ⟨hne, Int.dvd_iff_tmod_eq_zero.mp hdvd⟩] at h
  refine ⟨_, _, m, ?_, hm, hiff.trans (or_iff_right hzero)⟩
  exact (Option.some.inj (Option.ite_none_right_eq_some.mp h).2).symm

theorem printBytes_magnitude_megabytes :
    ∃ number suffix m, ['3', 'M', 'B'] = decimal number ++ [suffix, 'B'] ∧
      multiplier suffix = some m ∧
      (number * m = Int64.toInt 3145728 ↔ ¬ 1099511627776 ∣ Int64.toInt 3145728) :=
  printBytes_magnitude_iff 3145728 8 _ (by decide) (by decide) (by decide +kernel)

/-- One terabyte is printed as 1024 of them. -/
theorem printBytes_terabyte :
    printBytes 1099511627776 16 = some ['1', '0', '2', '4', 'T', 'B'] := by
  decide +kernel

end AndroidCore.Liblog
