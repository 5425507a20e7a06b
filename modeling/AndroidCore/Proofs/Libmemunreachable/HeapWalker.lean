import AndroidCore.Lib.Marking
import AndroidCore.Libmemunreachable.HeapWalker

/-!
# `AndroidCore.Proofs.Libmemunreachable.HeapWalker`: the map and the scan of a range

What a walker is for can be said without its map and without its loops. `registered` is
the list of the allocations that a sequence of calls leaves registered: each range that
overlaps none before it. A range *refers* to an allocation if one of its aligned words
holds an address inside of it, and an allocation is *reachable* if a root refers to it
through any number of allocations.

The map is the first step. `Ordered` says that its entries are disjoint and in order; for
such a map the comparator of the ranges is what a map needs, and `find` and `insert` do
what they should (`find_eq_some_iff`, `insert_eq_none_iff`, `mem_of_insert`). `Fits` is the
invariant of the calls, with the bounds that `WordContainsAllocationPtr` compares with.

The scan is the second. If a range keeps clear of the last word of the address space, the
loop of `ForEachPtrInRange` is a fold over its aligned addresses, for any callback
(`forEachPtrLoop_eq`). The marks of a walker are marks of `Lib.Marking`, and under `Fits`
the fold with the callback of `RecurseRoot` scans the allocations that the range refers to
(`Fits.foldl_forEachPtrStep`).
-/

namespace AndroidCore.Libmemunreachable

open Lib List

/-! ### What is registered, and what is reachable -/

/-- An address in a range. -/
def Range.Contains (r : Range) (addr : Nat) : Prop := r.begin ≤ addr ∧ addr < r.stop

/-- Two ranges with an address in common. -/
def Range.Overlaps (a b : Range) : Prop := a.begin < b.stop ∧ b.begin < a.stop

instance (a b : Range) : Decidable (a.Overlaps b) :=
  inferInstanceAs (Decidable (_ ∧ _))

/-- The last word of the address space. -/
def lastWord : Nat := addressSpace - wordSize

/-- The calls whose ranges do not reach into the last word, and whose allocations do not
end before they begin. -/
def HeapWalker.Call.InBounds : HeapWalker.Call → Prop
  | .allocation begin stop => begin ≤ stop ∧ begin < lastWord ∧ stop ≤ lastWord
  | .root begin stop => begin ≤ lastWord ∧ stop ≤ lastWord
  | .rootValues _ => True

/-- The allocations registered after a call: a range that overlaps one of them is left out. -/
def register (known : List Range) : HeapWalker.Call → List Range
  | .allocation begin stop =>
    let range := HeapWalker.normalRange begin stop
    if ∃ a ∈ known, a.Overlaps range then known else known ++ [range]
  | _ => known

/-- The allocations registered by a sequence of calls. -/
def registered (cs : List HeapWalker.Call) : List Range := cs.foldl register []

namespace HeapWalker

/-- The ranges of the map. -/
def ranges (w : HeapWalker) : List Range := w.allocations.map Prod.fst

/-- A range refers to an allocation: an aligned word in it holds an address inside of the
allocation. -/
def Refers (w : HeapWalker) (p : Process) (r a : Range) : Prop :=
  a ∈ w.ranges ∧ ∃ i, wordSize ∣ i ∧ r.Contains i ∧ a.Contains (w.readWord p i)

/-- A root refers to an allocation: a range of `roots_` does, or a value of `root_vals_` is
an address inside of it. -/
def RootRefers (w : HeapWalker) (p : Process) (a : Range) : Prop :=
  (∃ r ∈ w.roots, w.Refers p r a) ∨ a ∈ w.ranges ∧ ∃ v ∈ w.rootVals, a.Contains v

/-- A root refers to an allocation, directly or through other allocations. -/
def Reachable (w : HeapWalker) (p : Process) (a : Range) : Prop :=
  ∃ b, w.RootRefers p b ∧ Relation.ReflTransGen (w.Refers p) b a

/-- The array of `root_vals_` is aligned and keeps clear of the last word. -/
def ValsInBounds (w : HeapWalker) (p : Process) : Prop :=
  wordSize ∣ p.rootValsData ∧ p.rootValsData + w.rootVals.length * wordSize ≤ lastWord

end HeapWalker

/-! ### The map -/

/-- The entries are disjoint and in order. -/
def AllocationMap.Ordered (map : AllocationMap) : Prop :=
  map.Pairwise (fun a b => a.1.stop ≤ b.1.begin) ∧ ∀ e ∈ map, e.1.begin < e.1.stop

namespace AllocationMap

variable {e : Range × AllocationInfo}

theorem Ordered.tail {rest : AllocationMap} (h : Ordered (e :: rest)) : Ordered rest :=
  ⟨(pairwise_cons.mp h.1).2, fun x hx => h.2 x (mem_cons_of_mem _ hx)⟩

variable {key : Range}

/-- An entry behind one that is greater than the key is greater, too. -/
theorem Ordered.stop_le {x : Range × AllocationInfo} {rest : AllocationMap}
    (h : Ordered (e :: rest)) (hkey : key.stop ≤ e.1.begin) (hx : x ∈ e :: rest) :
    key.stop ≤ x.1.begin := by
  rcases mem_cons.mp hx with rfl | hx
  · exact hkey
  · have horder := (pairwise_cons.mp h.1).1 x hx
    have hne := h.2 e mem_cons_self
    omega

variable {map : AllocationMap}

/-- `find` of one address: the entry that contains it. -/
theorem find_eq_some_iff (h : Ordered map) {v : Nat} :
    find ⟨v, v + 1⟩ map = some e ↔ e ∈ map ∧ e.1.Contains v := by
  induction map with
  | nil => simp [find]
  | cons x rest ih =>
    simp only [find, compareRange, decide_eq_true_eq, Range.Contains]
    by_cases hless : x.1.stop ≤ v
    · rw [if_pos hless, ih h.tail, mem_cons]
      constructor
      · intro hmem
        exact ⟨.inr hmem.1, hmem.2⟩
      · rintro ⟨rfl | hmem, hin⟩
        · omega
        · exact ⟨hmem, hin⟩
    · rw [if_neg hless]
      by_cases hgreater : v + 1 ≤ x.1.begin
      · rw [if_pos hgreater]
        refine ⟨nofun, ?_⟩
        rintro ⟨hmem, hin⟩
        have hle : (⟨v, v + 1⟩ : Range).stop ≤ e.1.begin := h.stop_le hgreater hmem
        exact absurd hin.1 (Nat.not_le.mpr hle)
      · rw [if_neg hgreater, Option.some.injEq]
        constructor
        · rintro rfl
          exact ⟨mem_cons_self, by omega, by omega⟩
        · rintro ⟨hmem, hin⟩
          rcases mem_cons.mp hmem with rfl | hmem
          · rfl
          · have horder := (pairwise_cons.mp h.1).1 e hmem
            omega

variable {info : AllocationInfo}

/-- `insert` fails for a range that overlaps an entry. -/
theorem insert_eq_none_iff (h : Ordered map) :
    insert key info map = none ↔ ∃ e ∈ map, e.1.Overlaps key := by
  induction map with
  | nil => simp [insert]
  | cons x rest ih =>
    simp only [insert, compareRange, decide_eq_true_eq]
    by_cases hless : x.1.stop ≤ key.begin
    · rw [if_pos hless, Option.map_eq_none_iff, ih h.tail]
      constructor
      · rintro ⟨e, he, hover⟩
        exact ⟨e, mem_cons_of_mem _ he, hover⟩
      · rintro ⟨e, he, hover⟩
        rcases mem_cons.mp he with rfl | he
        · exact absurd hover.2 (by omega)
        · exact ⟨e, he, hover⟩
    · rw [if_neg hless]
      by_cases hgreater : key.stop ≤ x.1.begin
      · rw [if_pos hgreater]
        refine ⟨nofun, ?_⟩
        rintro ⟨e, he, hover⟩
        have hle := h.stop_le hgreater he
        exact absurd hover.1 (by omega)
      · rw [if_neg hgreater]
        exact ⟨fun _ => ⟨x, mem_cons_self, by omega, by omega⟩, fun _ => rfl⟩

variable {map' : AllocationMap}

/-- `insert` adds one entry. -/
theorem mem_of_insert (h : insert key info map = some map') :
    e ∈ map' ↔ e = (key, info) ∨ e ∈ map := by
  induction map generalizing map' with
  | nil =>
    cases h
    simp
  | cons x rest ih =>
    simp only [insert] at h
    split at h
    · obtain ⟨rest', hrest, rfl⟩ := Option.map_eq_some_iff.mp h
      rw [mem_cons, mem_cons, ih hrest]
      exact or_left_comm
    · split at h
      · cases h
        exact mem_cons
      · cases h

/-- `insert` keeps the order. -/
theorem Ordered.insert (h : Ordered map) (hkey : key.begin < key.stop)
    (hinsert : AllocationMap.insert key info map = some map') : Ordered map' := by
  have hne : ∀ e ∈ map', e.1.begin < e.1.stop := by
    intro e he
    rcases (mem_of_insert hinsert).mp he with rfl | he
    · exact hkey
    · exact h.2 e he
  refine ⟨?_, hne⟩
  clear hne
  induction map generalizing map' with
  | nil =>
    cases hinsert
    exact pairwise_singleton ..
  | cons x rest ih =>
    simp only [AllocationMap.insert, compareRange, decide_eq_true_eq] at hinsert
    split at hinsert
    · rename_i hless
      obtain ⟨rest', hrest, rfl⟩ := Option.map_eq_some_iff.mp hinsert
      refine pairwise_cons.mpr ⟨?_, ih h.tail hrest⟩
      intro e he
      rcases (mem_of_insert hrest).mp he with rfl | he
      · exact hless
      · exact (pairwise_cons.mp h.1).1 e he
    · split at hinsert
      · rename_i hgreater
        cases hinsert
        exact pairwise_cons.mpr ⟨fun e => h.stop_le hgreater, h.1⟩
      · cases hinsert

theorem map_fst_setReferenced (key : Range) (map : AllocationMap) :
    (map.setReferenced key).map Prod.fst = map.map Prod.fst := by
  unfold setReferenced
  rw [map_map]
  apply map_congr_left
  intro e _
  show (if e.1 = key then (e.1, _) else e).1 = e.1
  split <;> rfl

/-- The order of a map is one of its keys. -/
theorem Ordered.congr (h : Ordered map) (heq : map'.map Prod.fst = map.map Prod.fst) :
    Ordered map' := by
  constructor
  · have hpair := (pairwise_map (R := fun a b : Range => a.stop ≤ b.begin)).mpr h.1
    rw [← heq] at hpair
    exact pairwise_map.mp hpair
  · intro e he
    have hmem : e.1 ∈ map.map Prod.fst := heq ▸ mem_map_of_mem he
    obtain ⟨x, hx, hxe⟩ := mem_map.mp hmem
    rw [← hxe]
    exact h.2 x hx

/-- The keys of an ordered map are distinct. -/
theorem Ordered.nodup (h : Ordered map) : (map.map Prod.fst).Nodup := by
  rw [List.Nodup, pairwise_map]
  refine h.1.imp_of_mem ?_
  intro a b ha _ hab heq
  have hne := h.2 a ha
  rw [← heq] at hab
  omega

end AllocationMap

/-! ### The calls -/

namespace HeapWalker

/-- What the calls keep: the map is ordered, no range reaches into the last word, and the
valid range covers every allocation. -/
structure Fits (w : HeapWalker) : Prop where
  ordered : w.allocations.Ordered
  unmarked : ∀ e ∈ w.allocations, e.2.referencedFromRoot = false
  stop_le : w.validAllocationsRange.stop ≤ lastWord
  covers : ∀ e ∈ w.allocations, w.validAllocationsRange.begin ≤ e.1.begin ∧
    e.1.stop ≤ w.validAllocationsRange.stop
  roots_le : ∀ r ∈ w.roots, r.begin ≤ lastWord ∧ r.stop ≤ lastWord

theorem fits_new : Fits new where
  ordered := ⟨List.Pairwise.nil, nofun⟩
  unmarked := nofun
  stop_le := Nat.zero_le _
  covers := nofun
  roots_le := nofun

theorem normalRange_bounds {begin stop : Nat} (h : (Call.allocation begin stop).InBounds) :
    (normalRange begin stop).begin < (normalRange begin stop).stop ∧
      (normalRange begin stop).stop ≤ lastWord := by
  obtain ⟨hle, hlt, hstop⟩ := h
  have hlast : lastWord + 8 = addressSpace := by decide
  unfold normalRange
  split
  · rw [Nat.mod_eq_of_lt (by omega)]
    exact ⟨Nat.lt_succ_self _, hlt⟩
  · exact ⟨by simp only; omega, hstop⟩

variable {w : HeapWalker}

/-- One call: it keeps `Fits` and registers what it should. -/
theorem Fits.call (h : w.Fits) {known : List Range} (hknown : ∀ a, a ∈ w.ranges ↔ a ∈ known)
    {c : Call} (hc : c.InBounds) :
    (w.call c).Fits ∧ ∀ a, a ∈ (w.call c).ranges ↔ a ∈ register known c := by
  cases c with
  | root begin stop =>
    exact ⟨⟨h.ordered, h.unmarked, h.stop_le, h.covers,
      forall_mem_append.mpr ⟨h.roots_le, forall_mem_singleton.mpr hc⟩⟩, hknown⟩
  | rootValues vals =>
    exact ⟨⟨h.ordered, h.unmarked, h.stop_le, h.covers, h.roots_le⟩, hknown⟩
  | allocation begin stop =>
    obtain ⟨hne, hstop⟩ := normalRange_bounds hc
    have hoverlap : (∃ e ∈ w.allocations, e.1.Overlaps (normalRange begin stop)) ↔
        ∃ a ∈ known, a.Overlaps (normalRange begin stop) := by
      constructor
      · rintro ⟨e, he, hover⟩
        exact ⟨e.1, (hknown e.1).mp (mem_map_of_mem he), hover⟩
      · rintro ⟨a, ha, hover⟩
        obtain ⟨e, he, rfl⟩ := mem_map.mp ((hknown a).mpr ha)
        exact ⟨e, he, hover⟩
    have hnone : AllocationMap.insert (normalRange begin stop) ⟨false⟩ w.allocations = none ↔
        _ := AllocationMap.insert_eq_none_iff h.ordered
    simp only [HeapWalker.call, HeapWalker.allocation, register]
    cases hinsert : AllocationMap.insert (normalRange begin stop) ⟨false⟩ w.allocations with
    | none =>
      rw [if_pos (hoverlap.mp (hnone.mp hinsert))]
      exact ⟨h, hknown⟩
    | some map =>
      have hmem : ∀ e, e ∈ map ↔ _ := fun e => AllocationMap.mem_of_insert hinsert
      rw [if_neg fun hover => by
        rw [hnone.mpr (hoverlap.mpr hover)] at hinsert
        cases hinsert]
      refine ⟨⟨h.ordered.insert hne hinsert, ?_, ?_, ?_, h.roots_le⟩, ?_⟩
      · intro e he
        rcases (hmem e).mp he with rfl | he
        · rfl
        · exact h.unmarked e he
      · exact Nat.max_le.mpr ⟨h.stop_le, hstop⟩
      · intro e he
        rcases (hmem e).mp he with rfl | he
        · exact ⟨Nat.min_le_right _ _, Nat.le_max_right _ _⟩
        · have hcovers := h.covers e he
          exact ⟨Nat.le_trans (Nat.min_le_left _ _) hcovers.1,
            Nat.le_trans hcovers.2 (Nat.le_max_left _ _)⟩
      · intro a
        rw [mem_append, mem_singleton, ← hknown a]
        show a ∈ map.map Prod.fst ↔ _
        simp only [ranges, mem_map, hmem]
        constructor
        · rintro ⟨e, rfl | he, rfl⟩
          · exact .inr rfl
          · exact .inl ⟨e, he, rfl⟩
        · rintro (⟨e, he, rfl⟩ | rfl)
          · exact ⟨e, .inr he, rfl⟩
          · exact ⟨_, .inl rfl, rfl⟩

/-- A sequence of calls. -/
theorem fits_calls {cs : List Call} (hcs : ∀ c ∈ cs, c.InBounds) :
    (calls cs).Fits ∧ ∀ a, a ∈ (calls cs).ranges ↔ a ∈ registered cs := by
  have hrun : ∀ (w : HeapWalker) (known : List Range), w.Fits →
      (∀ a, a ∈ w.ranges ↔ a ∈ known) →
      (cs.foldl call w).Fits ∧ ∀ a, a ∈ (cs.foldl call w).ranges ↔ a ∈ cs.foldl register known := by
    induction cs with
    | nil => exact fun w known hfits hknown => ⟨hfits, hknown⟩
    | cons c rest ih =>
      intro w known hfits hknown
      obtain ⟨hfits', hknown'⟩ := hfits.call hknown (hcs c mem_cons_self)
      exact ih (fun c' hc' => hcs c' (mem_cons_of_mem _ hc')) _ _ hfits' hknown'
  exact hrun new [] fits_new fun a => Iff.rfl

/-! ### The scan of a range -/

/-- A walker that differs from another in its marks only. -/
structure SameHeap (w w' : HeapWalker) : Prop where
  ranges_eq : w'.ranges = w.ranges
  valid_eq : w'.validAllocationsRange = w.validAllocationsRange
  roots_eq : w'.roots = w.roots
  rootVals_eq : w'.rootVals = w.rootVals

theorem SameHeap.refl (w : HeapWalker) : SameHeap w w := ⟨rfl, rfl, rfl, rfl⟩

theorem SameHeap.readWord_eq {w' : HeapWalker} (h : SameHeap w w') (p : Process) :
    w'.readWord p = w.readWord p := by
  unfold readWord
  rw [h.rootVals_eq]

variable {p : Process} {i : Nat}

/-- `WordContainsAllocationPtr`: the entry that contains the word. -/
theorem Fits.wordContains_iff {w' : HeapWalker} (h : w.Fits) (hsame : SameHeap w w')
    {e : Range × AllocationInfo} :
    w'.wordContainsAllocationPtr p i = some e ↔
      e ∈ w'.allocations ∧ e.1.Contains (w.readWord p i) := by
  have hordered : w'.allocations.Ordered := h.ordered.congr hsame.ranges_eq
  have hlast : lastWord + 8 = addressSpace := by decide
  have hstop := h.stop_le
  simp only [wordContainsAllocationPtr, hsame.readWord_eq, hsame.valid_eq]
  by_cases hvalid : w.validAllocationsRange.begin ≤ w.readWord p i ∧
      w.readWord p i < w.validAllocationsRange.stop
  · rw [if_pos hvalid, Nat.mod_eq_of_lt (by omega)]
    exact AllocationMap.find_eq_some_iff hordered
  · rw [if_neg hvalid]
    refine ⟨nofun, ?_⟩
    rintro ⟨he, hin⟩
    -- the valid range covers every allocation, so the word is in it
    have hmem : e.1 ∈ w.ranges := hsame.ranges_eq ▸ mem_map_of_mem he
    obtain ⟨x, hx, hxe⟩ := mem_map.mp hmem
    have hcovers := h.covers x hx
    rw [hxe] at hcovers
    exact absurd ⟨Nat.le_trans hcovers.1 hin.1, Nat.lt_of_lt_of_le hin.2 hcovers.2⟩ hvalid

/-- The range of the entry does not depend on the marks. -/
theorem Fits.map_wordContains_iff {w' : HeapWalker} (h : w.Fits) (hsame : SameHeap w w')
    {a : Range} : (w'.wordContainsAllocationPtr p i).map Prod.fst = some a ↔
      a ∈ w.ranges ∧ a.Contains (w.readWord p i) := by
  rw [Option.map_eq_some_iff, ← hsame.ranges_eq]
  simp only [h.wordContains_iff hsame, ranges, mem_map]
  constructor
  · rintro ⟨e, ⟨he, hin⟩, rfl⟩
    exact ⟨⟨e, he, rfl⟩, hin⟩
  · rintro ⟨⟨e, he, rfl⟩, hin⟩
    exact ⟨e, ⟨he, hin⟩, rfl⟩

/-- The marks of a walker. -/
def marks : Marking.Marks HeapWalker Range where
  isMarked w a := w.allocations.any fun e => e.1 = a && e.2.referencedFromRoot
  mark w a := { w with allocations := w.allocations.setReferenced a }

variable {a : Range}

theorem isMarked_iff : marks.isMarked w a = true ↔ (a, ⟨true⟩) ∈ w.allocations := by
  simp only [marks, any_eq_true, Bool.and_eq_true, decide_eq_true_eq]
  constructor
  · rintro ⟨⟨range, info⟩, he, rfl, hmark⟩
    have hinfo : info = ⟨true⟩ := by
      cases info
      exact congrArg _ hmark
    exact hinfo ▸ he
  · intro h
    exact ⟨_, h, rfl, rfl⟩

/-- The entry of a range tells if it is marked. -/
theorem isMarked_of_mem (h : w.allocations.Ordered) {e : Range × AllocationInfo}
    (he : e ∈ w.allocations) : marks.isMarked w e.1 = e.2.referencedFromRoot := by
  rw [Bool.eq_iff_iff, isMarked_iff]
  obtain ⟨range, ⟨flag⟩⟩ := e
  constructor
  · intro hmark
    have heq := inj_on_of_nodup_map h.nodup hmark he rfl
    rw [← heq]
  · rintro rfl
    exact he

theorem lawful_marks (h : w.Fits) : Marking.Lawful marks w.ranges (SameHeap w) where
  nodup := h.ordered.nodup
  valid_mark := by
    intro m a hm _
    refine ⟨?_, hm.valid_eq, hm.roots_eq, hm.rootVals_eq⟩
    rw [← hm.ranges_eq]
    exact AllocationMap.map_fst_setReferenced a m.allocations
  isMarked_mark := by
    intro m a b hm ha _
    rw [isMarked_iff, isMarked_iff]
    show (b, _) ∈ m.allocations.map _ ↔ _
    rw [mem_map]
    constructor
    · rintro ⟨e, he, heq⟩
      split at heq
      · rename_i hea
        exact .inl ((congrArg Prod.fst heq).symm.trans hea)
      · exact .inr (heq ▸ he)
    · rintro (rfl | hb)
      · rw [← hm.ranges_eq] at ha
        obtain ⟨e, he, rfl⟩ := mem_map.mp ha
        exact ⟨e, he, if_pos rfl⟩
      · refine ⟨_, hb, ?_⟩
        split <;> rfl

/-- The addresses that the scan of a range reads from `start` on. -/
def scanned (start stop : Nat) : List Nat := List.range' start ((stop - start + 7) / 8) 8

/-- The allocations that the words at some addresses refer to, in their order. -/
def refsAt (w : HeapWalker) (p : Process) (addrs : List Nat) : List Range :=
  addrs.flatMap fun i => ((w.wordContainsAllocationPtr p i).map Prod.fst).toList

/-- The allocations that a range refers to, in the order in which the scan meets them. -/
def refs (w : HeapWalker) (p : Process) (r : Range) : List Range :=
  w.refsAt p (scanned ((r.begin + 7) / 8 * 8) r.stop)

theorem mem_scanned {r : Range} :
    i ∈ scanned ((r.begin + 7) / 8 * 8) r.stop ↔ wordSize ∣ i ∧ r.Contains i := by
  simp only [scanned, mem_range', Range.Contains, wordSize]
  constructor
  · omega
  · rintro ⟨⟨j, rfl⟩, hin⟩
    exact ⟨j - (r.begin + 7) / 8, by omega, by omega⟩

/-- The allocations that `refs` lists are those of `Refers`. -/
theorem Fits.mem_refs_iff (h : w.Fits) {r : Range} : a ∈ w.refs p r ↔ w.Refers p r a := by
  simp only [refs, refsAt, mem_flatMap, mem_scanned, Option.mem_toList,
    h.map_wordContains_iff (SameHeap.refl w)]
  constructor
  · rintro ⟨i, ⟨hdvd, hr⟩, ha, hin⟩
    exact ⟨ha, i, hdvd, hr, hin⟩
  · rintro ⟨ha, i, hdvd, hr, hin⟩
    exact ⟨i, ⟨hdvd, hr⟩, ha, hin⟩

/-- One word of a scan: the callback is a visit of the marker. -/
theorem Fits.forEachPtrStep_eq (h : w.Fits) {s : HeapWalker × List Range} (hs : SameHeap w s.1)
    (i : Nat) :
    forEachPtrStep p Prod.fst markReferenced i s
      = marks.scan ((w.wordContainsAllocationPtr p i).map Prod.fst).toList s := by
  have hfst : (s.1.wordContainsAllocationPtr p i).map Prod.fst
      = (w.wordContainsAllocationPtr p i).map Prod.fst := by
    apply Option.ext
    intro a
    exact (h.map_wordContains_iff hs).trans (h.map_wordContains_iff (SameHeap.refl w)).symm
  rw [← hfst]
  unfold forEachPtrStep
  cases href : s.1.wordContainsAllocationPtr p i with
  | none => rfl
  | some ref =>
    have hmem := ((h.wordContains_iff hs).mp href).1
    show markReferenced s ref = marks.visit s ref.1
    unfold Marking.Marks.visit
    rw [isMarked_of_mem (h.ordered.congr hs.ranges_eq) hmem]
    rfl

theorem Fits.mem_ranges_of_refsAt (h : w.Fits) {addrs : List Nat} (ha : a ∈ w.refsAt p addrs) :
    a ∈ w.ranges := by
  simp only [refsAt, mem_flatMap, Option.mem_toList, h.map_wordContains_iff (SameHeap.refl w)] at ha
  obtain ⟨i, -, hmem, -⟩ := ha
  exact hmem

/-- The loop over the words of a range takes the addresses in their order, if the range keeps
clear of the last word. -/
theorem forEachPtrLoop_eq {σ : Type} (p : Process) (walker : σ → HeapWalker)
    (f : σ → Range × AllocationInfo → σ) {stop : Nat} (hstop : stop ≤ lastWord) {n fuel : Nat}
    (hn : (stop - i + 7) / 8 = n) (hfuel : n < fuel) (s : σ) :
    forEachPtrLoop p walker f stop fuel i s
      = some ((scanned i stop).foldl (fun s i => forEachPtrStep p walker f i s) s) := by
  have hlast : lastWord + 8 = addressSpace := by decide
  induction n generalizing i s fuel with
  | zero =>
    obtain ⟨fuel, rfl⟩ : ∃ k, fuel = k + 1 := ⟨fuel - 1, by omega⟩
    rw [forEachPtrLoop, if_neg (by omega), scanned, hn]
    rfl
  | succ n ih =>
    obtain ⟨fuel, rfl⟩ : ∃ k, fuel = k + 1 := ⟨fuel - 1, by omega⟩
    have hnext : (stop - (i + 8) + 7) / 8 = n := by omega
    have hscanned : scanned i stop = i :: scanned (i + 8) stop := by
      unfold scanned
      rw [hn, hnext]
      rfl
    -- the address does not wrap, since the range keeps clear of the last word
    have hwrap : (i + wordSize) % addressSpace = i + 8 := Nat.mod_eq_of_lt (by
      show i + 8 < addressSpace
      omega)
    rw [forEachPtrLoop, if_pos (by omega), hwrap, ih hnext (by omega), hscanned,
      foldl_cons]

/-- The words at some addresses, with the callback of `RecurseRoot`, are a scan of the
marker. -/
theorem Fits.foldl_forEachPtrStep (h : w.Fits) (p : Process) (addrs : List Nat)
    {s : HeapWalker × List Range} (hs : SameHeap w s.1) :
    addrs.foldl (fun s i => forEachPtrStep p Prod.fst markReferenced i s) s
      = marks.scan (w.refsAt p addrs) s := by
  induction addrs generalizing s with
  | nil => rfl
  | cons i rest ih =>
    have hone : w.refsAt p [i] = ((w.wordContainsAllocationPtr p i).map Prod.fst).toList :=
      append_nil _
    obtain ⟨m', pushed, hrun, hvalid, -⟩ := (lawful_marks h).scan
      (fun a ha => h.mem_ranges_of_refsAt ha) hs s.2
    rw [foldl_cons, h.forEachPtrStep_eq hs, ← hone, ih (by rw [hrun]; exact hvalid)]
    show _ = marks.scan (w.refsAt p ([i] ++ rest)) s
    unfold refsAt Marking.Marks.scan
    rw [flatMap_append, foldl_append]

end HeapWalker

end AndroidCore.Libmemunreachable
