import AndroidCore.Init.Tokenizer

/-!
# `AndroidCore.Proofs.Init.Tokenizer`: every token is progress

A word and the end of a line take something away: characters of the text, or the end of a line that
was found behind a word. `ParseState.remaining` counts both, so that a loop over the tokens ends
(`nextToken_remaining`).
-/

namespace AndroidCore.Init.Tokenizer

/-- A bound for the number of tokens that are left. -/
def ParseState.remaining (state : ParseState) : Nat :=
  2 * state.ptr.length + if state.nexttoken then 1 else 0

/-- A word takes no tokens but those of its characters. -/
theorem scan_remaining (mode : Mode) (s : Text) (line : Nat) (text : Text) :
    (scan mode s line text).2.remaining ≤ 2 * text.length := by
  induction text generalizing mode s line with
  | nil => cases mode <;> simp [scan, ParseState.remaining]
  | cons c x ih =>
    have hstep : ∀ mode s line, (scan mode s line x).2.remaining ≤ 2 * (x.length + 1) :=
      fun mode s line => Nat.le_trans (ih mode s line) (by omega)
    cases mode <;> simp only [scan] <;> repeat' split
    -- either the loop goes on, or it stops in front of `c` or behind it
    all_goals first
      | exact hstep _ _ _
      | simp [ParseState.remaining]; try omega

/-- A word that begins with `c` takes at least this character. -/
theorem scan_start {c : Char} (hnul : c ≠ nul) (hnewline : c ≠ '\n')
    (hblank : ¬(c = ' ' ∨ c = '\t' ∨ c = '\r')) (line : Nat) (x : Text) :
    (scan (.text false) [] line (c :: x)).2.remaining < 2 * (c :: x).length := by
  have hstep : ∀ mode s line, (scan mode s line x).2.remaining < 2 * (c :: x).length := by
    intro mode s line
    have hx := scan_remaining mode s line x
    rw [List.length_cons]
    omega
  simp only [scan, Bool.false_eq_true, false_and, if_false, if_neg hnul, if_neg hnewline,
    if_neg hblank]
  split
  · exact hstep _ _ _
  · split <;> exact hstep _ _ _

theorem skip_remaining (comment : Bool) (line : Nat) (text : Text)
    (h : (skip comment line text).1 ≠ .eof) :
    (skip comment line text).2.remaining < 2 * text.length := by
  induction text generalizing comment with
  | nil => exact absurd rfl h
  | cons c x ih =>
    have hskip : ∀ comment, (skip comment line x).1 ≠ .eof →
        (skip comment line x).2.remaining < 2 * (c :: x).length :=
      fun comment h => Nat.lt_trans (ih comment h) (by rw [List.length_cons]; omega)
    simp only [skip] at h ⊢
    by_cases hnul : c = nul
    · rw [if_pos hnul] at h
      exact absurd rfl h
    rw [if_neg hnul] at h ⊢
    by_cases hnewline : c = '\n'
    · rw [if_pos hnewline]
      simp [ParseState.remaining]
    rw [if_neg hnewline] at h ⊢
    by_cases hcomment : comment = true ∨ c = '#'
    · rw [if_pos hcomment] at h ⊢
      exact hskip _ h
    rw [if_neg hcomment] at h ⊢
    by_cases hblank : c = ' ' ∨ c = '\t' ∨ c = '\r'
    · rw [if_pos hblank] at h ⊢
      exact hskip _ h
    rw [if_neg hblank]
    exact scan_start hnul hnewline hblank line x

/-- Every token but the last is progress. -/
theorem nextToken_remaining (state : ParseState) (h : (nextToken state).1 ≠ .eof) :
    (nextToken state).2.remaining < state.remaining := by
  unfold nextToken at h ⊢
  by_cases hnext : state.nexttoken = true
  · simp [ParseState.remaining, hnext]
  · rw [if_neg hnext] at h ⊢
    have hskip := skip_remaining false state.line state.ptr h
    simpa [ParseState.remaining, hnext] using hskip

end AndroidCore.Init.Tokenizer
