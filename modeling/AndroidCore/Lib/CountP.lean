import Mathlib.Data.List.Nodup

/-!
# `AndroidCore.Lib.CountP`: lists without duplicates

A predicate that is switched off at one member of a list without duplicates counts one
less. Bits, marks and slots are all counted this way. In a list without duplicate keys, the
search for a key finds the member that has it.
-/

namespace AndroidCore.Lib

open List

/-- Two predicates that differ at `a` only. -/
theorem countP_add_one {α : Type} {l : List α} (hl : l.Nodup) {a : α} (ha : a ∈ l)
    {p q : α → Bool} (hp : p a = true) (hq : q a = false)
    (hpq : ∀ b ∈ l, b ≠ a → q b = p b) : l.countP q + 1 = l.countP p := by
  obtain ⟨front, back, rfl⟩ := append_of_mem ha
  have hrest : (front ++ back).countP q = (front ++ back).countP p := by
    apply countP_congr
    intro b hb
    have hne : b ≠ a := by
      rintro rfl
      exact (nodup_cons.mp (nodup_middle.mp hl)).1 hb
    have hmem : b ∈ front ++ a :: back :=
      perm_middle.mem_iff.mpr (mem_cons_of_mem a hb)
    rw [hpq b hmem hne]
  simp only [countP_append, countP_cons, hp, hq, if_true, Bool.false_eq_true,
    if_false] at hrest ⊢
  omega

/-- The one member with a key. -/
theorem find?_of_nodup_map {α β : Type} [DecidableEq β] {l : List α} {key : α → β}
    (hl : (l.map key).Nodup) {a : α} (ha : a ∈ l) {k : β} (hk : key a = k) :
    l.find? (fun b => key b = k) = some a := by
  obtain ⟨b, hfind⟩ : ∃ b, l.find? (fun b => key b = k) = some b :=
    Option.isSome_iff_exists.mp (find?_isSome.mpr ⟨a, ha, decide_eq_true hk⟩)
  have hfound := find?_some hfind
  have hb : key b = k := of_decide_eq_true hfound
  rw [hfind, inj_on_of_nodup_map hl (mem_of_find?_eq_some hfind) ha (hb.trans hk.symm)]

end AndroidCore.Lib
