import Mathlib.Data.List.Nodup
import Mathlib.Tactic.Ring

/-!
# `AndroidCore.Lib.Thinning`: lists that lose elements

`Thinned P R xs ys` says that `ys` is what is left of `xs` when elements with `P` are
taken out and elements are replaced by ones that `R` relates them to. What is left keeps
its order. `tally` is a weighted sum over the elements with a property, and changes with
one element as that element's weight does.
-/

namespace AndroidCore.Lib

open List

variable {α κ : Type}

/-! ### Thinned lists -/

/-- `ys` is `xs` without some elements that have `P`, and with some replaced along `R`. -/
inductive Thinned (P : α → Prop) (R : α → α → Prop) : List α → List α → Prop
  | nil : Thinned P R [] []
  | keep {x : α} {xs ys : List α} : Thinned P R xs ys → Thinned P R (x :: xs) (x :: ys)
  | take {x : α} {xs ys : List α} : P x → Thinned P R xs ys → Thinned P R (x :: xs) ys
  | turn {x y : α} {xs ys : List α} :
      R x y → Thinned P R xs ys → Thinned P R (x :: xs) (y :: ys)

namespace Thinned

variable {P : α → Prop} {R : α → α → Prop} {xs ys zs us vs : List α}

theorem refl : ∀ xs : List α, Thinned P R xs xs
  | [] => .nil
  | _ :: xs => .keep (refl xs)

theorem append (h : Thinned P R xs ys) (h' : Thinned P R us vs) :
    Thinned P R (xs ++ us) (ys ++ vs) := by
  induction h with
  | nil => exact h'
  | keep _ ih => exact .keep ih
  | take hp _ ih => exact .take hp ih
  | turn hr _ ih => exact .turn hr ih

/-- One element is taken out of the middle. -/
theorem erase {x : α} (hp : P x) (us vs : List α) : Thinned P R (us ++ x :: vs) (us ++ vs) :=
  (refl us).append (.take hp (refl vs))

/-- One element in the middle is replaced. -/
theorem replace {x y : α} (hr : R x y) (us vs : List α) :
    Thinned P R (us ++ x :: vs) (us ++ y :: vs) :=
  (refl us).append (.turn hr (refl vs))

/-- Two rounds are one, if a replaced element could have been taken out or replaced in
one go. -/
theorem trans (hP : ∀ x y, R x y → P y → P x) (hR : ∀ x y z, R x y → R y z → R x z)
    (h : Thinned P R xs ys) (h' : Thinned P R ys zs) : Thinned P R xs zs := by
  induction h generalizing zs with
  | nil => exact h'
  | @keep x xs ys _ ih =>
    cases h' with
    | keep h' => exact .keep (ih h')
    | take hp h' => exact .take hp (ih h')
    | turn hr h' => exact .turn hr (ih h')
  | take hp _ ih => exact .take hp (ih h')
  | @turn x y xs ys hr _ ih =>
    cases h' with
    | keep h' => exact .turn hr (ih h')
    | take hp h' => exact .take (hP x y hr hp) (ih h')
    | turn hr' h' => exact .turn (hR _ _ _ hr hr') (ih h')

section Keys

variable {key : α → κ} (hkey : ∀ x y, R x y → key y = key x)
include hkey

/-- The keys that are left stand in their old order. -/
theorem keys_sublist (h : Thinned P R xs ys) : (ys.map key).Sublist (xs.map key) := by
  induction h with
  | nil => exact .slnil
  | keep _ ih => exact ih.cons_cons _
  | take _ _ ih => exact ih.cons _
  | turn hr _ ih =>
    simp only [map_cons, hkey _ _ hr]
    exact ih.cons_cons _

theorem key_mem (h : Thinned P R xs ys) {y : α} (hy : y ∈ ys) : key y ∈ xs.map key :=
  (h.keys_sublist hkey).subset (mem_map_of_mem hy)

/-- An element whose key is gone was one to take. -/
theorem of_gone (h : Thinned P R xs ys) {x : α} (hx : x ∈ xs)
    (hgone : ∀ y ∈ ys, key y ≠ key x) : P x := by
  induction h with
  | nil => cases hx
  | keep _ ih =>
    rcases mem_cons.1 hx with rfl | hx
    · exact absurd rfl (hgone _ (mem_cons_self ..))
    · exact ih hx fun y hy => hgone y (mem_cons_of_mem _ hy)
  | take hp _ ih =>
    rcases mem_cons.1 hx with rfl | hx
    · exact hp
    · exact ih hx hgone
  | turn hr _ ih =>
    rcases mem_cons.1 hx with rfl | hx
    · exact absurd (hkey _ _ hr) (hgone _ (mem_cons_self ..))
    · exact ih hx fun y hy => hgone y (mem_cons_of_mem _ hy)

/-- An element that is left is the one of its key, as it was or replaced. -/
theorem of_left (h : Thinned P R xs ys) (hnodup : (xs.map key).Nodup) {x y : α} (hx : x ∈ xs)
    (hy : y ∈ ys) (hxy : key y = key x) :
    y = x ∨ R x y := by
  induction h with
  | nil => cases hx
  | @keep z xs ys h ih =>
    simp only [map_cons, nodup_cons] at hnodup
    rcases mem_cons.1 hx with rfl | hxs <;> rcases mem_cons.1 hy with rfl | hys
    · exact .inl rfl
    · exact absurd (hxy ▸ h.key_mem hkey hys) hnodup.1
    · exact absurd (hxy ▸ mem_map_of_mem hxs) hnodup.1
    · exact ih hnodup.2 hxs hys
  | @take z xs ys _ h ih =>
    simp only [map_cons, nodup_cons] at hnodup
    rcases mem_cons.1 hx with rfl | hx
    · have hmem := h.key_mem hkey hy
      exact absurd (hxy ▸ hmem) hnodup.1
    · exact ih hnodup.2 hx hy
  | @turn z w xs ys hr h ih =>
    simp only [map_cons, nodup_cons] at hnodup
    rcases mem_cons.1 hx with rfl | hxs <;> rcases mem_cons.1 hy with rfl | hys
    · exact .inr hr
    · exact absurd (hxy ▸ h.key_mem hkey hys) hnodup.1
    · exact absurd ((hkey _ _ hr).symm.trans hxy ▸ mem_map_of_mem hxs) hnodup.1
    · exact ih hnodup.2 hxs hys

end Keys

end Thinned

/-! ### Weighted sums -/

/-- The sum of the weights `f` of the elements with `q`. -/
def tally (q : α → Bool) (f : α → Nat) (xs : List α) : Nat := ((xs.filter q).map f).sum

/-- One element in the middle counts with its weight. -/
theorem tally_middle (q : α → Bool) (f : α → Nat) (xs ys : List α) (x : α) :
    tally q f (xs ++ x :: ys) = tally q f (xs ++ ys) + if q x then f x else 0 := by
  simp only [tally, filter_append, filter_cons]
  cases q x
  · simp
  · simp only [↓reduceIte, map_append, map_cons, sum_append, sum_cons]
    omega

/-- The number of elements with `q` changes with one element in the middle. -/
theorem countP_middle (q : α → Bool) (xs ys : List α) (x : α) :
    (xs ++ x :: ys).countP q = (xs ++ ys).countP q + if q x then 1 else 0 := by
  simp only [countP_append, countP_cons]
  omega

end AndroidCore.Lib
