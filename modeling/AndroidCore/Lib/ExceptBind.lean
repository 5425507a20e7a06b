import Mathlib.Tactic.Ring

/-!
# `AndroidCore.Lib.ExceptBind`: taking a fallible computation apart

A `do` block over `Except` is a chain of binds, and a check that stops it is an
`if` in front of a `throw`. The lemmas here say when such a block returns, one
step at a time, so that a run can be taken apart with `obtain` and without
unfolding the monad.
-/

namespace AndroidCore.Lib

variable {ε α β : Type}

theorem ok_bind_eq (a : α) (f : α → Except ε β) : (Except.ok a >>= f) = f a := rfl

/-- A chain returns when both of its parts do. -/
theorem bind_eq_ok_iff {x : Except ε α} {f : α → Except ε β} {b : β} :
    (x >>= f) = .ok b ↔ ∃ a, x = .ok a ∧ f a = .ok b := by
  cases x with
  | error e | ok a => simp [bind, Except.bind]

variable {e : ε} {a : α} {p : Prop}

theorem pure_eq_ok_iff {b : α} : (pure a : Except ε α) = .ok b ↔ a = b :=
  Except.ok.injEq a b ▸ Iff.rfl

/-- A checked block returns when the check does not hold and the rest returns. -/
theorem check_eq_ok_iff [Decidable p] {k : α → Except ε β} {r : Except ε β} {b : β} :
    (if p then (throw e : Except ε α) >>= k else r) = .ok b ↔ ¬ p ∧ r = .ok b := by
  by_cases h : p
  · rw [if_pos h]
    exact ⟨fun hok => absurd hok nofun, fun hand => absurd h hand.1⟩
  · rw [if_neg h]
    exact ⟨fun hr => ⟨h, hr⟩, fun hand => hand.2⟩

theorem ite_error_eq_ok_iff [Decidable p] {r : Except ε α} :
    (if p then .error e else r) = .ok a ↔ ¬ p ∧ r = .ok a := by
  by_cases h : p
  · simp [h]
  · simp [h]

end AndroidCore.Lib
