import Mathlib.Tactic.Ring

/-!
# `AndroidCore.Lib.Region`: computations that read a region of memory

A computation over a region of bytes returns, fails with an error, reads outside of the
region, or has not finished within the steps it was given. `view` is the read: a read that
leaves the region ends the computation, whatever would come behind it.

`Safe x P` is the rule for such computations: `x` reads nothing outside of the region, and
if it returns then with a value that satisfies `P`. `Safe.bind` composes it.
-/

namespace AndroidCore.Lib

/-- What becomes of a computation over a region. -/
inductive Outcome (ε α : Type) where
  | ok (a : α)
  | error (e : ε)
  | outside (off len : Nat)
  | unfinished
deriving DecidableEq, Repr

namespace Outcome

variable {ε α β : Type}

/-- The computation goes on with the value. -/
protected def bind (x : Outcome ε α) (f : α → Outcome ε β) : Outcome ε β :=
  match x with
  | ok a => f a
  | error e => error e
  | outside off len => outside off len
  | unfinished => unfinished

instance : Monad (Outcome ε) where
  pure := ok
  bind := Outcome.bind

@[simp] theorem ok_bind (a : α) (f : α → Outcome ε β) : (ok a >>= f) = f a := rfl

@[simp] theorem pure_eq_ok (a : α) : (pure a : Outcome ε α) = ok a := rfl

/-- Nothing is read outside of the region, and a value that is returned satisfies `P`. -/
def Safe (x : Outcome ε α) (P : α → Prop) : Prop :=
  match x with
  | ok a => P a
  | error _ => True
  | outside _ _ => False
  | unfinished => True

variable {P : α → Prop}

theorem Safe.ok {a : α} (h : P a) : Safe (ok a : Outcome ε α) P := h

theorem Safe.error (e : ε) : Safe (error e : Outcome ε α) P := trivial

theorem Safe.unfinished : Safe (unfinished : Outcome ε α) P := trivial

variable {x : Outcome ε α}

/-- The cases of a computation that is safe. -/
@[elab_as_elim]
theorem Safe.elim {motive : Outcome ε α → Prop} (hx : Safe x P)
    (ok : ∀ a, P a → motive (Outcome.ok a)) (error : ∀ e, motive (Outcome.error e))
    (unfinished : motive Outcome.unfinished) : motive x := by
  cases x with
  | ok a => exact ok a hx
  | error e => exact error e
  | outside off len => cases hx
  | unfinished => exact unfinished

theorem Safe.bind {Q : β → Prop} {f : α → Outcome ε β} (hx : Safe x P)
    (hf : ∀ a, P a → Safe (f a) Q) : Safe (x >>= f) Q :=
  hx.elim hf Safe.error Safe.unfinished

/-- A check in front of the rest. -/
theorem Safe.check {p : Prop} [Decidable p] {e : ε} (hx : ¬ p → Safe x P) :
    Safe (if p then Outcome.error e else x) P := by
  by_cases h : p
  · rw [if_pos h]
    trivial
  · rw [if_neg h]
    exact hx h

theorem Safe.not_outside (hx : Safe x P) (off len : Nat) : x ≠ outside off len := by
  rintro rfl
  exact hx

end Outcome

/-- Reading `len` bytes at `off`. -/
def view {ε : Type} (region : List UInt8) (off len : Nat) : Outcome ε (List UInt8) :=
  if off + len ≤ region.length then .ok ((region.drop off).take len) else .outside off len

section

variable {ε : Type} {region : List UInt8} {off len : Nat}

theorem view_eq_ok (h : off + len ≤ region.length) :
    (view region off len : Outcome ε _) = .ok ((region.drop off).take len) :=
  if_pos h

theorem safe_view (h : off + len ≤ region.length) :
    (view region off len : Outcome ε _).Safe fun bytes => bytes.length = len := by
  rw [view_eq_ok h]
  change ((region.drop off).take len).length = len
  simp only [List.length_take, List.length_drop]
  omega

end

end AndroidCore.Lib
