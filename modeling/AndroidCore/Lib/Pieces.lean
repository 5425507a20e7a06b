import Mathlib.Data.List.Basic
import Mathlib.Tactic.Ring

/-!
# `AndroidCore.Lib.Pieces`: cutting lengths and lists into pieces

The loop `while (len) { n = min(len, cap); ...; len -= n; }` handles a length in
pieces of at most `cap`. `pieces cap len` lists the successive values of `n`, so
that a body becomes a fold over the list. The only fact most bodies need is
`sum_pieces`: for a positive `cap` the pieces add up to `len`.

`segments z cur xs` are the terminated pieces of `xs`, the first of them behind `cur`, without
their terminators. What follows the last terminator is not among them.
-/

namespace AndroidCore.Lib

/-! ### Lengths -/

/-- The pieces of the loop, with `fuel` bounding the number of iterations. -/
def piecesAux (cap : Nat) : Nat → Nat → List Nat
  | 0, _ => []
  | fuel + 1, len =>
    if len = 0 then [] else min len cap :: piecesAux cap fuel (len - min len cap)

/-- The successive values of `min(len, cap)`. Each iteration takes at least one
unit when `cap` is positive, so `len` iterations are enough. -/
def pieces (cap len : Nat) : List Nat := piecesAux cap len len

theorem sum_piecesAux {cap : Nat} (hcap : 0 < cap) :
    ∀ (fuel len : Nat), len ≤ fuel → (piecesAux cap fuel len).sum = len := by
  intro fuel
  induction fuel with
  | zero =>
    intro len hlen
    have hzero : len = 0 := by omega
    simp [piecesAux, hzero]
  | succ fuel ih =>
    intro len hlen
    rw [piecesAux]
    split
    · simp_all
    · rw [List.sum_cons, ih (len - min len cap) (by omega)]
      omega

/-- The pieces add up to the whole length. -/
theorem sum_pieces {cap : Nat} (hcap : 0 < cap) (len : Nat) : (pieces cap len).sum = len :=
  sum_piecesAux hcap len len (Nat.le_refl len)

/-! ### Lists with terminators -/

open List

variable {α : Type} [DecidableEq α]

/-- The pieces of a list that end with `z`, without it. -/
def segments (z : α) : List α → List α → List (List α)
  | _, [] => []
  | cur, b :: rest =>
    if b = z then cur :: segments z [] rest else segments z (cur ++ [b]) rest

/-- A piece without `z`, and its terminator. -/
theorem segments_append_cons {z : α} {c : List α} (hc : z ∉ c) (cur rest : List α) :
    segments z cur (c ++ z :: rest) = (cur ++ c) :: segments z [] rest := by
  induction c generalizing cur with
  | nil => simp [segments]
  | cons b c ih =>
    have hb : b ≠ z := fun h => hc (h ▸ mem_cons_self)
    have hrest : z ∉ c := fun h => hc (mem_cons_of_mem b h)
    show segments z cur (b :: (c ++ z :: rest)) = _
    rw [segments, if_neg hb, ih hrest]
    simp

/-- Pieces without `z` are what their concatenation is cut into. -/
theorem segments_flatMap {z : α} {cs : List (List α)} (hcs : ∀ c ∈ cs, z ∉ c) :
    segments z [] (cs.flatMap (· ++ [z])) = cs := by
  induction cs with
  | nil => rfl
  | cons c cs ih =>
    have hrest : ∀ d ∈ cs, z ∉ d := fun d hd => hcs d (mem_cons_of_mem c hd)
    rw [flatMap_cons, append_assoc]
    show segments z [] (c ++ z :: cs.flatMap (· ++ [z])) = c :: cs
    rw [segments_append_cons (hcs c mem_cons_self), nil_append, ih hrest]

/-- Behind a terminator the pieces are those of the rest. -/
theorem segments_append {z : α} {xs : List α} (hxs : xs.getLast? = some z) (cur ys : List α) :
    segments z cur (xs ++ ys) = segments z cur xs ++ segments z [] ys := by
  induction xs generalizing cur with
  | nil => simp at hxs
  | cons b xs ih =>
    rw [cons_append, segments, segments]
    by_cases hnil : xs = []
    · -- the last element, which is the terminator
      subst hnil
      have hb : b = z := by simpa using hxs
      simp [hb, segments]
    · have hlast : xs.getLast? = some z := by
        rwa [getLast?_cons_of_ne_nil hnil] at hxs
      by_cases hb : b = z
      · rw [if_pos hb, if_pos hb, ih hlast, cons_append]
      · rw [if_neg hb, if_neg hb, ih hlast]

/-- There is one piece for each terminator. -/
theorem length_segments (z : α) (cur xs : List α) : (segments z cur xs).length = xs.count z := by
  induction xs generalizing cur with
  | nil => rfl
  | cons b xs ih =>
    rw [segments]
    by_cases hb : b = z
    · rw [if_pos hb, hb, count_cons_self, length_cons, ih]
    · rw [if_neg hb, count_cons_of_ne hb, ih]

/-- A list that ends with its terminator has a piece. -/
theorem length_segments_pos {z : α} {xs : List α} (hxs : xs.getLast? = some z)
    (cur : List α) : 0 < (segments z cur xs).length := by
  rw [length_segments, count_pos_iff]
  exact mem_of_getLast? hxs

end AndroidCore.Lib
