import AndroidCore.Lib.LinearProbing
import AndroidCore.Lib.PowerOfTwo
import AndroidCore.Proofs.Libziparchive.ReadsInside

/-!
# `AndroidCore.Proofs.Libziparchive.HashTable`: the hash table of the reader

The table of `ParseZipArchive` is one with linear probing (`AndroidCore.Lib.LinearProbing`):
its size is a power of two (`roundUpPower2_eq`), so that the mask of the source is the
remainder, and the names of the central directory are the keys.
-/

namespace AndroidCore.Libziparchive

open Lib List UInt32

/-! ### `RoundUpPower2` -/

/-- A stage of the source doubles the reach. -/
theorem smeared_stage {x n : Nat} {v : UInt32} (h : Smeared x n v.toNat) (s : UInt32)
    (hs : s.toNat = n) (hn : n < 32) : Smeared x (n + n) (v ||| v >>> s).toNat := by
  rw [UInt32.toNat_or, UInt32.toNat_shiftRight, hs, Nat.mod_eq_of_lt hn]
  exact h.step

/-- The number is rounded up to a power of two. -/
theorem roundUpPower2_eq {n : Nat} (hpos : 1 ≤ n) (hn : n ≤ 2 ^ 31) :
    ∃ k, (roundUpPower2 (UInt32.ofNat n)).toNat = 2 ^ k ∧ n ≤ 2 ^ k := by
  have hofNat : (ofNat n).toNat = n := by
    exact Nat.mod_eq_of_lt (by omega)
  have hsub : (ofNat n - 1).toNat = n - 1 := by
    rw [UInt32.toNat_sub_of_le _ _ (by rw [le_iff_toNat_le, hofNat]; exact hpos), hofNat]
    rfl
  have h1 : Smeared (n - 1) 1 (ofNat n - 1).toNat := by
    rw [hsub]
    exact smeared_one _
  have h2 := smeared_stage h1 1 rfl (by decide)
  have h4 := smeared_stage h2 2 rfl (by decide)
  have h8 := smeared_stage h4 4 rfl (by decide)
  have h16 := smeared_stage h8 8 rfl (by decide)
  have h32 := smeared_stage h16 16 rfl (by decide)
  by_cases hone : n = 1
  · subst hone
    exact ⟨0, by decide, by decide⟩
  · have heq := h32.eq (by omega) (by omega)
    have hlog : Nat.log 2 (n - 1) < 31 := Nat.log_lt_of_lt_pow (by omega) (by omega)
    have hpow : 2 ^ (Nat.log 2 (n - 1) + 1) ≤ 2 ^ 31 := Nat.pow_le_pow_right (by decide) hlog
    have hlt : n - 1 < 2 ^ (Nat.log 2 (n - 1) + 1) := Nat.lt_pow_succ_log_self (by decide) _
    refine ⟨Nat.log 2 (n - 1) + 1, ?_, by omega⟩
    change (_ + (1 : UInt32)).toNat = _
    rw [UInt32.toNat_add]
    change (_ + 1) % _ = _
    omega

/-! ### Names and slots -/

/-- The bytes of a name of the central directory. -/
def nameOf (file : List UInt8) (s : ZipString) : List UInt8 :=
  (file.drop s.name).take s.nameLength

/-- The slot that a name is looked for first. -/
def nameHash (name : List UInt8) : Nat := (computeHash name).toNat

variable {s : ZipString} {file : List UInt8}

theorem length_nameOf (h : s.name + s.nameLength ≤ file.length) :
    (nameOf file s).length = s.nameLength := by
  simp only [nameOf, length_take, length_drop]
  omega

theorem equals_eq (h : s.name + s.nameLength ≤ file.length) (name : List UInt8) :
    s.equals file name = .ok (decide (nameOf file s = name)) := by
  unfold ZipString.equals
  split
  next hlen =>
    have hne : nameOf file s ≠ name := by
      intro heq
      rw [← heq, length_nameOf h] at hlen
      exact hlen rfl
    rw [decide_eq_false hne]
    rfl
  next =>
    rw [view_eq_ok h]
    change Outcome.ok ((nameOf file s) == name) = _
    congr 1
    exact beq_eq_decide _ _

/-- All names of a table are in the file. -/
def Readable (file : List UInt8) (table : HashTable) : Prop :=
  ∀ i s, slot table i = some s → s.name + s.nameLength ≤ file.length

theorem and_size_sub_one {table : HashTable} {k : Nat} (h : table.length = 2 ^ k) (i : Nat) :
    i &&& (table.length - 1) = i % table.length := by
  rw [h, Nat.and_two_pow_sub_one_eq_mod]

/-- The search of the source is the one of the library. -/
theorem probe_eq {table : HashTable} {k : Nat} (hk : table.length = 2 ^ k)
    (hread : Readable file table) {name : List UInt8} {n i i' : Nat} {found : Bool}
    (h : probeFrom table (nameOf file) name n i = some (i', found)) :
    probe file table name n i = .ok (i', found) := by
  induction n generalizing i with
  | zero => cases h
  | succ n ih =>
    rw [probeFrom] at h
    rw [probe]
    cases hslot : slot table i with
    | none =>
      have hget : table.getD i none = none := hslot
      rw [hslot] at h
      cases h
      rw [hget]
      rfl
    | some s =>
      have hget : table.getD i none = some s := hslot
      rw [hslot] at h
      rw [hget]
      simp only at h ⊢
      rw [equals_eq (hread i s hslot), Outcome.ok_bind]
      by_cases hname : nameOf file s = name
      · rw [if_pos hname] at h
        cases h
        rw [decide_eq_true hname]
        rfl
      · rw [if_neg hname] at h
        rw [decide_eq_false hname, and_size_sub_one hk]
        exact ih h

/-- A table with the given names. -/
structure TableOf (file : List UInt8) (k : Nat) (table : HashTable) (names : List ZipString) :
    Prop where
  length : table.length = 2 ^ k
  probed : Probed table (nameOf file) nameHash
  items : (items table).Perm names
  readable : ∀ s ∈ names, s.name + s.nameLength ≤ file.length

namespace TableOf

variable {file : List UInt8} {k : Nat} {table : HashTable} {names : List ZipString}

section

variable (h : TableOf file k table names)
include h

theorem slot_mem {i : Nat} (hs : slot table i = some s) : s ∈ names :=
  h.items.mem_iff.mp (mem_items_iff.mpr ⟨i, hs⟩)

theorem readable_table : Readable file table :=
  fun _ s hs => h.readable s (h.slot_mem hs)

/-- A name of the table is found. -/
theorem entryToIndex_eq (hs : s ∈ names) :
    ∃ i, slot table i = some s ∧ entryToIndex file table (nameOf file s) = .ok i := by
  obtain ⟨i, hi⟩ := mem_items_iff.mp (h.items.mem_iff.mpr hs)
  refine ⟨i, hi, ?_⟩
  have hprobe := probe_eq h.length h.readable_table (probe_of_mem h.probed hi)
  rw [← and_size_sub_one h.length] at hprobe
  unfold entryToIndex lookup
  have hstart : (computeHash (nameOf file s)).toNat = nameHash (nameOf file s) := rfl
  rw [hstart, hprobe]
  rfl

/-- A new name is added. -/
theorem addToHash_eq (hs : s.name + s.nameLength ≤ file.length) (hroom : names.length < 2 ^ k)
    (hnew : ∀ s' ∈ names, nameOf file s' ≠ nameOf file s) :
    ∃ table', addToHash file table s (nameOf file s) = .ok table' ∧
      TableOf file k table' (names ++ [s]) := by
  have hfree : ∃ i < table.length, slot table i = none := by
    apply exists_empty_slot
    rw [h.items.length_eq, h.length]
    exact hroom
  have habsent : ∀ i s', slot table i = some s' → nameOf file s' ≠ nameOf file s :=
    fun i s' hs' => hnew s' (h.slot_mem hs')
  obtain ⟨j, hj, hempty, hpassed, hprobe⟩ :=
    probe_of_not_mem habsent hfree (nameHash (nameOf file s))
  have hprobe' := probe_eq h.length h.readable_table hprobe
  rw [← and_size_sub_one h.length] at hprobe'
  refine ⟨table.set (around table (nameHash (nameOf file s)) j) (some s), ?_, ?_⟩
  · unfold addToHash lookup
    have hstart : (computeHash (nameOf file s)).toNat = nameHash (nameOf file s) := rfl
    rw [hstart, hprobe']
    rfl
  · have hlt : around table (nameHash (nameOf file s)) j < table.length :=
      Nat.mod_lt _ (by omega)
    refine ⟨?_, h.probed.set hj hempty hpassed, ?_, ?_⟩
    · rw [length_set]
      exact h.length
    · have hset := items_set hlt hempty s
      have hcons := h.items.cons s
      exact (hset.trans hcons).trans (perm_append_singleton s names).symm
    · rw [forall_mem_append, forall_mem_singleton]
      exact ⟨h.readable, hs⟩

end

end TableOf

theorem tableOf_empty (file : List UInt8) (k : Nat) :
    TableOf file k (List.replicate (2 ^ k) none) [] where
  length := length_replicate
  probed := probed_replicate _ _ _
  items := by rw [items_replicate_none]
  readable := fun _ hs => (nomatch hs)

end AndroidCore.Libziparchive
