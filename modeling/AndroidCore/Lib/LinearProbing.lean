import Mathlib.Data.List.Perm.Basic
import Mathlib.Data.Nat.Find

/-!
# `AndroidCore.Lib.LinearProbing`: hash tables with linear probing

A table is a list of slots, each empty or with an item. An item is looked for from the
slot of its key's hash on, around the table, until the key or an empty slot is found.

`Probed` is the invariant that makes this work: from the slot of an item's hash to the item
there is no empty slot. `probe_of_mem` finds every item, `probe_of_not_mem` finds an empty
slot for a new one, and `Probed.set` keeps the invariant when it is put there.
-/

namespace AndroidCore.Lib

open List Option

section

variable {α κ : Type}

/-- The item of a slot. -/
abbrev slot (table : List (Option α)) (i : Nat) : Option α := table.getD i none

/-- The search for a key, for at most `n` slots from `i` on: the slot where it ends, and
whether the key is there. -/
def probeFrom [DecidableEq κ] (table : List (Option α)) (key : α → κ) (k : κ) :
    Nat → Nat → Option (Nat × Bool)
  | 0, _ => none
  | n + 1, i =>
    match slot table i with
    | none => some (i, false)
    | some a =>
      if key a = k then some (i, true) else probeFrom table key k n ((i + 1) % table.length)

/-- The `j`-th slot around the table from `start` on. -/
abbrev around (table : List (Option α)) (start j : Nat) : Nat := (start + j) % table.length

/-- The slots from `start` on that are passed in a search for `k`. -/
def Passed (table : List (Option α)) (key : α → κ) (k : κ) (start j : Nat) : Prop :=
  ∀ j' < j, ∃ a, slot table (around table start j') = some a ∧ key a ≠ k

/-- Every item is behind slots that a search for it passes. -/
def Probed (table : List (Option α)) (key : α → κ) (hash : κ → Nat) : Prop :=
  ∀ i a, slot table i = some a →
    ∃ j < table.length, i = around table (hash (key a)) j ∧
      Passed table key (key a) (hash (key a)) j

variable {i : Nat} {a : α}

theorem slot_eq_some_iff {table : List (Option α)} :
    slot table i = some a ↔ table[i]? = some (some a) := by
  rw [slot, getD_eq_getElem?_getD]
  cases table[i]? with
  | none | some s => simp

variable {table : List (Option α)} {key : α → κ}

/-- A search goes on behind the slots that it passes. -/
theorem probeFrom_of_passed [DecidableEq κ] {k : κ} {start j n : Nat}
    (hpassed : Passed table key k start j) (hn : j < n) :
    probeFrom table key k n (start % table.length)
      = probeFrom table key k (n - j) (around table start j) := by
  induction j with
  | zero => rfl
  | succ j ih =>
    obtain ⟨a, ha, hne⟩ := hpassed j (Nat.lt_succ_self j)
    rw [ih (fun j' hj' => hpassed j' (by omega)) (by omega)]
    have hstep : n - j = (n - (j + 1)) + 1 := by omega
    rw [hstep, probeFrom, ha]
    simp only
    rw [if_neg hne]
    rw [Nat.mod_add_mod, Nat.add_assoc]

/-- An item of the table is found. -/
theorem probe_of_mem [DecidableEq κ] {hash : κ → Nat} (h : Probed table key hash)
    (ha : slot table i = some a) :
    probeFrom table key (key a) table.length (hash (key a) % table.length) = some (i, true) := by
  obtain ⟨j, hj, rfl, hpassed⟩ := h i a ha
  obtain ⟨m, hm⟩ : ∃ m, table.length - j = m + 1 := ⟨table.length - j - 1, by omega⟩
  rw [probeFrom_of_passed hpassed hj, hm, probeFrom, ha]
  simp only
  rw [if_pos trivial]

/-- A key that is not in the table is looked for up to an empty slot. -/
theorem probe_of_not_mem [DecidableEq κ] {k : κ} (hk : ∀ i a, slot table i = some a → key a ≠ k)
    (hfree : ∃ i < table.length, slot table i = none) (start : Nat) :
    ∃ j < table.length, slot table (around table start j) = none ∧
      Passed table key k start j ∧
      probeFrom table key k table.length (start % table.length)
        = some (around table start j, false) := by
  obtain ⟨i, hi, hempty⟩ := hfree
  -- The empty slot is one of those around the table.
  have hexists : ∃ j, slot table (around table start j) = none := by
    refine ⟨i + (table.length - start % table.length), ?_⟩
    have hlt : start % table.length < table.length := Nat.mod_lt _ (by omega)
    have haround : around table start (i + (table.length - start % table.length)) = i := by
      have hdiv := Nat.mod_add_div start table.length
      have heq : start + (i + (table.length - start % table.length))
          = i + table.length * (start / table.length + 1) := by
        rw [Nat.mul_add]
        omega
      rw [around, heq, Nat.add_mul_mod_self_left, Nat.mod_eq_of_lt hi]
    rw [haround, hempty]
  have hpassed : ∀ j, (∀ j' < j, ¬ slot table (around table start j') = none) →
      Passed table key k start j := by
    intro j hmin j' hj'
    obtain ⟨a, ha⟩ := ne_none_iff_exists'.mp (hmin j' hj')
    exact ⟨a, ha, hk _ a ha⟩
  classical
  have hspec := Nat.find_spec hexists
  have hmin : ∀ j' < Nat.find hexists, ¬ slot table (around table start j') = none :=
    fun j' => Nat.find_min hexists
  generalize Nat.find hexists = j at hspec hmin
  have hlt : j < table.length := by
    -- After one time around the slots repeat.
    by_contra hge
    have hback : around table start (j - table.length) = around table start j := by
      have hsub : start + j = start + (j - table.length) + table.length := by omega
      rw [around, around, hsub, Nat.add_mod_right]
    exact hmin (j - table.length) (by omega) (hback ▸ hspec)
  refine ⟨j, hlt, hspec, hpassed j hmin, ?_⟩
  obtain ⟨m, hm⟩ : ∃ m, table.length - j = m + 1 := ⟨table.length - j - 1, by omega⟩
  rw [probeFrom_of_passed (hpassed j hmin) hlt, hm, probeFrom, hspec]

theorem slot_set_ne {i' : Nat} {s : Option α} (hne : i ≠ i') :
    slot (table.set i s) i' = slot table i' := by
  rw [slot, slot, getD_eq_getElem?_getD, getD_eq_getElem?_getD, getElem?_set_ne hne]

/-- A new item goes to an empty slot. -/
theorem Probed.set {hash : κ → Nat} (h : Probed table key hash) {j : Nat} (hj : j < table.length)
    (hempty : slot table (around table (hash (key a)) j) = none)
    (hpassed : Passed table key (key a) (hash (key a)) j) :
    Probed (table.set (around table (hash (key a)) j) (some a)) key hash := by
  have hlen : ∀ start j', around (table.set (around table (hash (key a)) j) (some a)) start j'
      = around table start j' := by
    simp [around]
  -- No slot that is passed is the empty one.
  have hkeep : ∀ {k start j'}, Passed table key k start j' →
      Passed (table.set (around table (hash (key a)) j) (some a)) key k start j' := by
    intro k start j' hold i hi
    obtain ⟨b, hb, hne⟩ := hold i hi
    refine ⟨b, ?_, hne⟩
    rw [hlen, slot_set_ne, hb]
    intro heq
    rw [heq, hb] at hempty
    cases hempty
  intro i b hb
  by_cases hi : around table (hash (key a)) j = i
  · have hlt : around table (hash (key a)) j < table.length := Nat.mod_lt _ (by omega)
    have hself : slot (table.set (around table (hash (key a)) j) (some a)) i = some a := by
      rw [← hi, slot, getD_eq_getElem?_getD, getElem?_set_self hlt]
      rfl
    obtain rfl : a = b := some.inj (hself.symm.trans hb)
    refine ⟨j, by simpa using hj, ?_, hkeep hpassed⟩
    rw [hlen]
    exact hi.symm
  · rw [slot_set_ne hi] at hb
    obtain ⟨j', hj', rfl, hold⟩ := h i b hb
    refine ⟨j', by simpa using hj', ?_, hkeep hold⟩
    rw [hlen]

/-- The items of a table. -/
def items (table : List (Option α)) : List α := table.filterMap id

theorem mem_items_iff : a ∈ items table ↔ ∃ i, slot table i = some a := by
  simp only [items, mem_filterMap]
  constructor
  · rintro ⟨s, hmem, rfl⟩
    obtain ⟨i, hi⟩ := getElem?_of_mem hmem
    exact ⟨i, slot_eq_some_iff.mpr hi⟩
  · rintro ⟨i, hi⟩
    exact ⟨some a, mem_of_getElem? (slot_eq_some_iff.mp hi), rfl⟩

/-- A table with fewer items than slots has an empty one. -/
theorem exists_empty_slot (h : (items table).length < table.length) :
    ∃ i < table.length, slot table i = none := by
  by_contra hnone
  push Not at hnone
  have hall : ∀ s ∈ table, s.isSome = true := by
    intro s hs
    obtain ⟨i, hi⟩ := getElem?_of_mem hs
    have hlt : i < table.length := (List.getElem?_eq_some_iff.mp hi).1
    have hne := hnone i hlt
    rw [slot, getD_eq_getElem?_getD, hi] at hne
    exact ne_none_iff_isSome.mp hne
  have hmap : table = (items table).map some := by
    clear h hnone
    induction table with
    | nil => rfl
    | cons s rest ih =>
      obtain ⟨a, rfl⟩ := isSome_iff_exists.mp (hall s mem_cons_self)
      have hrest := ih fun s hs => hall s (mem_cons_of_mem _ hs)
      simpa [items] using hrest
  have heq := congrArg length hmap
  rw [length_map] at heq
  omega

/-- A new item in an empty slot. -/
theorem items_set (hi : i < table.length) (hempty : slot table i = none) (a : α) :
    (items (table.set i (some a))).Perm (a :: items table) := by
  have hget : table[i]? = some none := by
    rw [slot, getD_eq_getElem?_getD, getElem?_eq_getElem hi] at hempty
    rw [getElem?_eq_getElem hi]
    exact congrArg some hempty
  have hget : table[i] = none := (List.getElem?_eq_some_iff.mp hget).2
  have hsplit : table = table.take i ++ none :: table.drop (i + 1) := by
    rw [← hget, getElem_cons_drop, take_append_drop]
  rw [set_eq_take_append_cons_drop, if_pos hi]
  conv_rhs => rw [hsplit]
  simp only [items, filterMap_append]
  exact perm_middle

@[simp] theorem items_replicate_none (n : Nat) :
    items (List.replicate n (none : Option α)) = [] := by
  simp [items]

end

/-- A table without items. -/
theorem probed_replicate {α κ : Type} (key : α → κ) (hash : κ → Nat) (n : Nat) :
    Probed (List.replicate n none) key hash := by
  intro i a ha
  have hmem : a ∈ items (replicate n none) := mem_items_iff.mpr ⟨i, ha⟩
  rw [items_replicate_none] at hmem
  cases hmem

end AndroidCore.Lib
