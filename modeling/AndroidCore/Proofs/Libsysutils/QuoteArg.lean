import AndroidCore.Libsysutils.FrameworkListener

/-!
# `AndroidCore.Proofs.Libsysutils.QuoteArg`: commands of quoted arguments

A command that is put together from quoted arguments is taken apart into the same arguments
(`parse_quoted`): what `quoteArg` writes for a character makes the loop put this character into
`tmp`, and only the blanks between the arguments end one.
-/

namespace AndroidCore.Libsysutils

open List

namespace Parse

/-- The quoted arguments, with blanks between them. -/
def quoted (args : List (List UInt8)) : List UInt8 := [0x20].intercalate (args.map quoteArg)

/-- The text of a sequence number: one word, with nothing to escape, which `strtol` reads to its
end. -/
def IsSeqNumber (num : List UInt8) : Prop :=
  0x20 ∉ num ∧ num.flatMap escapeChar = num ∧ (strtol num).2 = []

variable {q n : Bool} {t : List UInt8} {v : List (List UInt8)} {e : List Effect}

/-- Text in quotes, or without a blank, goes into `tmp`. -/
theorem foldlM_escapeChar {text : List UInt8} (hblank : q = true ∨ 0x20 ∉ text)
    (hfits : t.length + text.length < cmdBufSize) :
    (text.flatMap escapeChar).foldlM step ⟨false, q, n, t, v, e⟩ =
      .ok ⟨false, q, n, t ++ text, v, e⟩ := by
  induction text generalizing t with
  | nil => rw [append_nil]; rfl
  | cons c text ih =>
    rw [length_cons] at hfits
    have hput : ∀ esc, put ⟨esc, q, n, t, v, e⟩ c = .ok ⟨esc, q, n, t ++ [c], v, e⟩ :=
      fun _ => if_neg (Nat.not_le.mpr (show t.length < cmdBufSize - 1 by omega))
    have hchar : (escapeChar c).foldlM step ⟨false, q, n, t, v, e⟩ =
        .ok ⟨false, q, n, t ++ [c], v, e⟩ := by
      unfold escapeChar
      split
      next hspecial =>
        rcases hspecial with rfl | rfl <;> simp [step, hput, bind, Except.bind, pure, Except.pure]
      next hplain =>
        have hc : q = false → c ≠ 0x20 := by
          rintro rfl rfl
          simp at hblank
        simp_all [step]
    rw [flatMap_cons, foldlM_append, hchar]
    refine (ih (hblank.imp_right fun h hmem => h (mem_cons_of_mem c hmem)) ?_).trans ?_
    · rw [length_append, length_singleton]
      omega
    · rw [append_assoc]
      rfl

theorem foldlM_quoteArg {arg : List UInt8} (hfits : arg.length < cmdBufSize) :
    (quoteArg arg).foldlM step ⟨false, false, n, [], v, e⟩ = .ok ⟨false, false, n, arg, v, e⟩ := by
  show (_ ++ [0x22]).foldlM step ⟨false, true, n, [], v, e⟩ = _
  rw [foldlM_append, foldlM_escapeChar (.inl rfl) (by simpa using hfits)]
  rfl

theorem length_le_quoteArg (arg : List UInt8) : arg.length ≤ (quoteArg arg).length := by
  induction arg with
  | nil => exact Nat.zero_le _
  | cons c arg ih =>
    have hc : 1 ≤ (escapeChar c).length := by
      unfold escapeChar
      split <;> simp
    simp only [quoteArg, flatMap_cons, length_cons, length_append] at ih ⊢
    omega

/-- The loop over the arguments, and the last one. -/
theorem foldlM_quoted {args : List (List UInt8)} (hne : args ≠ [])
    (hmax : v.length + args.length ≤ cmdArgsMax) (hfits : (quoted args).length < cmdBufSize) :
    ∃ last, ((quoted args).foldlM step ⟨false, false, true, [], v, e⟩ >>= pushArg) =
      .ok ⟨false, false, true, last, v ++ args, e⟩ := by
  induction args generalizing v with
  | nil => exact absurd rfl hne
  | cons arg args ih =>
    have harg := length_le_quoteArg arg
    rw [length_cons] at hmax
    have hpush : pushArg ⟨false, false, true, arg, v, e⟩ =
        .ok ⟨false, false, true, arg, v ++ [arg], e⟩ :=
      if_neg (Nat.not_le.mpr (show v.length < cmdArgsMax by omega))
    cases args with
    | nil =>
      simp only [quoted, map_cons, map_nil, intercalate_singleton] at hfits ⊢
      rw [foldlM_quoteArg (by omega)]
      exact ⟨arg, hpush⟩
    | cons next args =>
      have hquoted : quoted (arg :: next :: args) =
          quoteArg arg ++ 0x20 :: quoted (next :: args) := by
        simp [quoted]
      rw [hquoted, length_append, length_cons] at hfits
      -- the blank behind the argument ends it
      have hblank : step ⟨false, false, true, arg, v, e⟩ 0x20 =
          .ok ⟨false, false, true, [], v ++ [arg], e⟩ := by
        have hlt : ¬ cmdBufSize - 1 ≤ arg.length := by omega
        simp [step, endWord, hlt, hpush, bind, Except.bind, pure, Except.pure]
      obtain ⟨last, hrest⟩ := @ih (v ++ [arg]) (cons_ne_nil _ _)
        (by rwa [length_append, length_singleton, Nat.add_assoc, Nat.add_comm 1]) (by omega)
      refine ⟨last, ?_⟩
      rw [append_assoc] at hrest
      rw [hquoted, foldlM_append, foldlM_quoteArg (by omega)]
      show (foldlM step _ _ >>= pushArg) = _
      rw [foldlM_cons, hblank]
      exact hrest

theorem foldlM_number {num : List UInt8} (hnum : IsSeqNumber num)
    (hfits : num.length + 1 < cmdBufSize) :
    (num ++ [0x20]).foldlM step (start true) =
      .ok ⟨false, false, true, [], [], [.setCmdNum (strtol num).1]⟩ := by
  obtain ⟨hblank, hplain, hend⟩ := hnum
  have hlt : ¬ cmdBufSize - 1 ≤ num.length := by omega
  rw [← hplain, foldlM_append, start, foldlM_escapeChar (.inr hblank) (by rw [length_nil]; omega),
    hplain]
  show foldlM step ⟨false, false, false, num, [], []⟩ [0x20] = _
  simp [step, endWord, hlt, hend]

/-- The arguments behind what has been read. -/
theorem parse_append {args : List (List UInt8)} (hne : args ≠ []) (hmax : args.length ≤ cmdArgsMax)
    {withSeq : Bool} {num : List UInt8}
    (hnum : num.foldlM step (start withSeq) = .ok ⟨false, false, true, [], [], e⟩)
    (hfits : (quoted args).length < cmdBufSize) :
    ∃ s, parse withSeq (num ++ quoted args) = .ok s ∧ s.argv = args := by
  obtain ⟨last, hquoted⟩ := @foldlM_quoted [] e args hne (by simpa using hmax) hfits
  refine ⟨⟨false, false, true, last, args, e⟩, ?_, rfl⟩
  rw [parse, foldlM_append, hnum]
  show ((quoted args).foldlM step _ >>= fun s => s.pushArg >>= _) = _
  rw [← bind_assoc]
  exact congrArg (· >>= _) hquoted

/-- For every list of arguments whose quoted text fits into the buffer, without a number or, if
the listener uses numbers, with one: `dispatchCommand` takes the text apart into the arguments. -/
theorem parse_quoted {args : List (List UInt8)} (hne : args ≠ [])
    (hmax : args.length ≤ cmdArgsMax) :
    ((quoted args).length < cmdBufSize →
      ∃ s, parse false (quoted args) = .ok s ∧ s.argv = args) ∧
    ∀ num, IsSeqNumber num → (num ++ [0x20] ++ quoted args).length < cmdBufSize →
      ∃ s, parse true (num ++ [0x20] ++ quoted args) = .ok s ∧ s.argv = args := by
  refine ⟨fun hfits => @parse_append [] args hne hmax false [] rfl hfits, fun num hnum hfits => ?_⟩
  simp only [length_append, length_singleton] at hfits
  exact parse_append hne hmax (foldlM_number hnum (by omega)) (by omega)

/-- An empty argument, and one with a quote and a blank. -/
theorem parse_quoted_two :
    ∃ s, parse true ([0x37] ++ [0x20] ++ quoted [[], [0x22, 0x20]]) = .ok s ∧
      s.argv = [[], [0x22, 0x20]] :=
  (parse_quoted (cons_ne_nil _ _) (by decide)).2 [0x37] ⟨by decide, by decide, by decide⟩
    (by decide)

end Parse

end AndroidCore.Libsysutils
