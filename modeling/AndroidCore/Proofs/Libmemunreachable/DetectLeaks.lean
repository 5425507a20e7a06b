import AndroidCore.Proofs.Libmemunreachable.HeapWalker

/-!
# `AndroidCore.Proofs.Libmemunreachable.DetectLeaks`: leak detection is exact

`RecurseRoot` is the walk of the marker of `Lib.Marking` over the allocations that a range
refers to (`Fits.recurseLoop_eq`), so each call of it keeps the invariant of the marker and
adds one root (`Fits.recurseRoot`). After the last call the marked allocations are the
reachable ones (`Fits.detectLeaks`), and `Leaked` reports the others, their number and
their bytes (`leaked_exact`).

The calls have to keep clear of the last word of the address space. A root that reaches
into it makes the address of `ForEachPtrInRange` wrap, and the loop does not end
(`lastWordRoot_not_detected`).
-/

namespace AndroidCore.Libmemunreachable

open Lib List

namespace HeapWalker

/-! ### The walk from a root -/

/-- A range whose scan does not wrap. -/
def Clear (r : Range) : Prop := r.begin ≤ lastWord ∧ r.stop ≤ lastWord

variable {w m : HeapWalker} {a : Range}

theorem Fits.clear_of_mem (h : w.Fits) (ha : a ∈ w.ranges) : Clear a := by
  obtain ⟨e, he, rfl⟩ := mem_map.mp ha
  have hcovers := h.covers e he
  have hne := h.ordered.2 e he
  have hstop := h.stop_le
  exact ⟨by omega, by omega⟩

theorem Fits.mem_ranges_of_refs (h : w.Fits) (p : Process) (r a : Range) (ha : a ∈ w.refs p r) :
    a ∈ w.ranges :=
  h.mem_ranges_of_refsAt ha

variable {bound : Nat} {r : Range}

/-- `ForEachPtrInRange` takes the aligned addresses of the range. -/
theorem forEachPtrInRange_eq {σ : Type} (p : Process) (walker : σ → HeapWalker)
    (f : σ → Range × AllocationInfo → σ) (hbound : addressSpace ≤ bound) (hr : Clear r) (s : σ) :
    forEachPtrInRange p walker f bound r s
      = some ((scanned ((r.begin + 7) / 8 * 8) r.stop).foldl
          (fun s i => forEachPtrStep p walker f i s) s) := by
  have hlast : lastWord + 8 = addressSpace := by decide
  obtain ⟨hbegin, hstop⟩ := hr
  have haligned : alignedBegin r = (r.begin + 7) / 8 * 8 := by
    show (r.begin + 7) % addressSpace / 8 * 8 = _
    rw [Nat.mod_eq_of_lt (by omega)]
  rw [forEachPtrInRange, haligned]
  exact forEachPtrLoop_eq p walker f hstop rfl (by omega) s

variable {p : Process}

/-- `ForEachPtrInRange` with the callback of `RecurseRoot`. -/
theorem Fits.forEachPtrInRange_marks (h : w.Fits) (hbound : addressSpace ≤ bound) (hr : Clear r)
    {s : HeapWalker × List Range} (hs : SameHeap w s.1) :
    forEachPtrInRange p Prod.fst markReferenced bound r s
      = some (marks.scan (w.refs p r) s) := by
  rw [forEachPtrInRange_eq p Prod.fst markReferenced hbound hr, h.foldl_forEachPtrStep p _ hs]
  rfl

/-- The loop of `RecurseRoot` is the walk of the marker. -/
theorem Fits.recurseLoop_eq (h : w.Fits) (hbound : addressSpace ≤ bound) (fuel : Nat)
    {s : HeapWalker × List Range} (hs : SameHeap w s.1) (hclear : ∀ r ∈ s.2, Clear r) :
    recurseLoop p bound fuel s = marks.walk (w.refs p) fuel s := by
  induction fuel generalizing s with
  | zero => rfl
  | succ fuel ih =>
    obtain ⟨m, todo⟩ := s
    cases todo with
    | nil => rfl
    | cons r todo =>
      obtain ⟨m', pushed, hrun, hvalid, -, hpushed, -⟩ :=
        (lawful_marks h).scan (h.mem_ranges_of_refs p r) hs todo
      have heach := h.forEachPtrInRange_marks (p := p) hbound
        (hclear r mem_cons_self) (s := (m, todo)) hs
      show (forEachPtrInRange p Prod.fst markReferenced bound r (m, todo)).bind
        (recurseLoop p bound fuel) = marks.walk (w.refs p) fuel (marks.scan (w.refs p r) (m, todo))
      rw [heach, hrun]
      refine ih hvalid (forall_mem_append.mpr ⟨fun x hx => ?_, (forall_mem_cons.mp hclear).2⟩)
      exact h.clear_of_mem (h.mem_ranges_of_refs p r x (hpushed x hx))

/-- The invariant of the marker for a walker: `done` are the roots walked from so far. -/
abbrev MarkedFrom (w : HeapWalker) (p : Process) (done : List Range) (m : HeapWalker) : Prop :=
  Marking.Inv marks (w.refs p) w.ranges (SameHeap w) (· ∈ done) (m, [])

section
variable (h : w.Fits) (hbound : addressSpace + w.ranges.length + 2 ≤ bound)
include h hbound

/-- One call of `RecurseRoot`: it ends, and one root more is walked from. -/
theorem Fits.recurseRoot {done : List Range} (hm : MarkedFrom w p done m) (hr : Clear r) :
    ∃ m', HeapWalker.recurseRoot p bound m r = some m' ∧ MarkedFrom w p (done ++ [r]) m' := by
  have hstart := hm.start r
  have hunmarked : marks.unmarked w.ranges m ≤ w.ranges.length := countP_le_length
  have hfuel : [r].length + marks.unmarked w.ranges m < bound := by
    rw [length_singleton]
    omega
  obtain ⟨m', hwalk, hinv⟩ := hstart.walk (lawful_marks h) (h.mem_ranges_of_refs p) hfuel
  refine ⟨m', ?_, ?_⟩
  · rw [← hwalk]
    exact h.recurseLoop_eq (by omega) bound hstart.valid (forall_mem_singleton.mpr hr)
  · have hroots : (· ∈ done ++ [r]) = fun a => a ∈ done ∨ a = r := by
      funext a
      rw [mem_append, mem_singleton]
    show Marking.Inv marks (w.refs p) w.ranges (SameHeap w) (· ∈ done ++ [r]) (m', [])
    rw [hroots]
    exact hinv

/-- The loop over `roots_`. -/
theorem Fits.recurseRoots (roots : List Range) (hroots : ∀ r ∈ roots, Clear r) {done : List Range}
    (hm : MarkedFrom w p done m) :
    ∃ m', roots.foldlM (HeapWalker.recurseRoot p bound) m = some m' ∧
      MarkedFrom w p (done ++ roots) m' := by
  induction roots generalizing done m with
  | nil =>
    rw [append_nil]
    exact ⟨m, rfl, hm⟩
  | cons r rest ih =>
    obtain ⟨m₁, hrun, hm₁⟩ := h.recurseRoot hbound hm (hroots r mem_cons_self)
    obtain ⟨m₂, hrest, hm₂⟩ := ih (fun x hx => hroots x (mem_cons_of_mem _ hx)) hm₁
    refine ⟨m₂, ?_, ?_⟩
    · rw [foldlM_cons, hrun]
      exact hrest
    · rw [append_assoc] at hm₂
      exact hm₂

end

/-- Before the first root nothing is marked. -/
theorem Fits.markedFrom_nil (h : w.Fits) (p : Process) : MarkedFrom w p [] w where
  valid := SameHeap.refl w
  sound := by
    intro a _ hmark
    have hflag := h.unmarked _ (isMarked_iff.mp hmark)
    cases hflag
  todo_sound := nofun
  roots_closed := nofun
  marked_closed := by
    intro a _ hmark
    have hflag := h.unmarked _ (isMarked_iff.mp hmark)
    cases hflag

/-! ### The roots -/

/-- The array of `root_vals_` refers to the allocations that its values point into. -/
theorem ValsInBounds.refers_iff (h : w.ValsInBounds p) :
    w.Refers p (w.valsRange p) a ↔ a ∈ w.ranges ∧ ∃ v ∈ w.rootVals, a.Contains v := by
  obtain ⟨⟨d, hd⟩, hle⟩ := h
  have hlast : lastWord + 8 = addressSpace := by decide
  simp only [wordSize] at hd hle
  have hstop : (p.rootValsData + w.rootVals.length * 8) % addressSpace
      = p.rootValsData + w.rootVals.length * 8 := Nat.mod_eq_of_lt (by omega)
  simp only [Refers, valsRange, Range.Contains, wordSize, hstop]
  refine and_congr_right fun _ => ?_
  constructor
  · rintro ⟨i, hdvd, hi, hin⟩
    have hindex : (i - p.rootValsData) / 8 < w.rootVals.length := by omega
    have hread : w.readWord p i = w.rootVals[(i - p.rootValsData) / 8] := by
      simp [readWord, wordSize, hi, hindex]
    rw [hread] at hin
    exact ⟨_, getElem_mem hindex, hin⟩
  · rintro ⟨v, hv, hin⟩
    obtain ⟨j, hj, rfl⟩ := getElem_of_mem hv
    have hread : w.readWord p (p.rootValsData + 8 * j) = w.rootVals[j] := by
      have hlt : 8 * j < w.rootVals.length * 8 := by omega
      simp [readWord, wordSize, hj, hlt]
    exact ⟨p.rootValsData + 8 * j, ⟨d + j, by omega⟩, by omega, hread ▸ hin⟩

/-- What the marker reaches from all roots is what is reachable. -/
theorem Fits.reached_iff (h : w.Fits) (hp : w.ValsInBounds p) :
    Marking.Reached (w.refs p) (· ∈ w.roots ++ [w.valsRange p]) a ↔ w.Reachable p a := by
  have hrel : (fun x y => y ∈ w.refs p x) = w.Refers p := by
    funext x y
    exact propext h.mem_refs_iff
  unfold Marking.Reached Reachable
  rw [hrel]
  constructor
  · rintro ⟨r, hr, hpath⟩
    obtain ⟨b, hrb, hba⟩ := Relation.TransGen.head'_iff.mp hpath
    refine ⟨b, ?_, hba⟩
    rcases mem_append.mp hr with hr | hr
    · exact .inl ⟨r, hr, hrb⟩
    · rw [mem_singleton.mp hr] at hrb
      exact .inr (hp.refers_iff.mp hrb)
  · rintro ⟨b, hroot | hvals, hba⟩
    · obtain ⟨r, hr, hrb⟩ := hroot
      exact ⟨r, mem_append_left _ hr, Relation.TransGen.head' hrb hba⟩
    · exact ⟨w.valsRange p, mem_append_right _ (mem_singleton_self _),
        Relation.TransGen.head' (hp.refers_iff.mpr hvals) hba⟩

/-- `DetectLeaks` ends, and the marked allocations are the reachable ones. -/
theorem Fits.detectLeaks (h : w.Fits) (hp : w.ValsInBounds p)
    (hbound : addressSpace + w.ranges.length + 2 ≤ bound) :
    ∃ m, w.detectLeaks p bound = some m ∧ SameHeap w m ∧
      ∀ a ∈ w.ranges, marks.isMarked m a = true ↔ w.Reachable p a := by
  obtain ⟨m₁, hroots, hm₁⟩ :=
    h.recurseRoots hbound w.roots (fun r => h.roots_le r) (h.markedFrom_nil p)
  have hvals : m₁.valsRange p = w.valsRange p := by
    unfold valsRange
    rw [hm₁.valid.rootVals_eq]
  have hclear : Clear (w.valsRange p) := by
    have hlast : lastWord + 8 = addressSpace := by decide
    have hle := hp.2
    refine ⟨by show p.rootValsData ≤ lastWord; omega, ?_⟩
    show (p.rootValsData + w.rootVals.length * wordSize) % addressSpace ≤ lastWord
    rw [Nat.mod_eq_of_lt (by omega)]
    exact hle
  obtain ⟨m₂, hlastRoot, hm₂⟩ := h.recurseRoot hbound hm₁ hclear
  refine ⟨m₂, ?_, hm₂.valid, ?_⟩
  · show (w.roots.foldlM (HeapWalker.recurseRoot p bound) w).bind _ = some m₂
    rw [hroots]
    show HeapWalker.recurseRoot p bound m₁ (m₁.valsRange p) = some m₂
    rw [hvals]
    exact hlastRoot
  · intro a ha
    rw [hm₂.marked_iff (h.mem_ranges_of_refs p) ha]
    exact h.reached_iff hp

/-! ### The report -/

/-- The ranges of the entries without a mark. -/
def leaks (map : AllocationMap) : List Range :=
  (map.filter fun e => !e.2.referencedFromRoot).map Prod.fst

theorem foldl_countLeak (map : AllocationMap) (n : Nat) {bytes : Nat}
    (hbytes : bytes < addressSpace) :
    map.foldl countLeak (n, bytes)
      = (n + (leaks map).length,
        (bytes + ((leaks map).map Range.size).sum) % addressSpace) := by
  induction map generalizing n bytes with
  | nil => simp [leaks, Nat.mod_eq_of_lt hbytes]
  | cons e rest ih =>
    rw [foldl_cons]
    cases hmark : e.2.referencedFromRoot with
    | true =>
      have hleaks : leaks (e :: rest) = leaks rest := by simp [leaks, hmark]
      rw [hleaks, ← ih n hbytes]
      simp [countLeak, hmark]
    | false =>
      have hleaks : leaks (e :: rest) = e.1 :: leaks rest := by simp [leaks, hmark]
      have hstep : countLeak (n, bytes) e = (n + 1, (bytes + e.1.size) % addressSpace) := by
        simp [countLeak, hmark]
      rw [hstep, ih _ (Nat.mod_lt _ (by decide)), hleaks, length_cons, map_cons,
        sum_cons, Nat.mod_add_mod, Nat.add_assoc bytes, Nat.add_assoc n,
        Nat.add_comm 1]

theorem foldl_listLeak (limit : Nat) (map : AllocationMap) (found : List Range) (n : Nat) :
    (map.foldl (listLeak limit) (found, n)).1 = found ++ (leaks map).take (limit - n) := by
  induction map generalizing found n with
  | nil => simp [leaks]
  | cons e rest ih =>
    rw [foldl_cons]
    cases hmark : e.2.referencedFromRoot with
    | true =>
      have hleaks : leaks (e :: rest) = leaks rest := by simp [leaks, hmark]
      rw [hleaks, ← ih found n]
      simp [listLeak, hmark]
    | false =>
      have hleaks : leaks (e :: rest) = e.1 :: leaks rest := by simp [leaks, hmark]
      by_cases hroom : n < limit
      · have hstep : listLeak limit (found, n) e = (found ++ [e.1], n + 1) := by
          simp [listLeak, hmark, hroom]
        have htake : limit - n = (limit - (n + 1)) + 1 := by omega
        rw [hstep, ih, hleaks, htake, append_assoc]
        rfl
      · have hstep : listLeak limit (found, n) e = (found, n + 1) := by
          simp [listLeak, hmark, hroom]
        have hzero : limit - n = 0 := by omega
        have hzero' : limit - (n + 1) = 0 := by omega
        rw [hstep, ih, hzero, hzero', take_zero, take_zero]

/-- Disjoint ranges in order, between two addresses: their sizes fit between them. -/
theorem sum_size_le {rs : List Range} (hpair : rs.Pairwise fun a b => a.stop ≤ b.begin)
    {lo hi : Nat} (hlo : lo ≤ hi) (hhi : hi < addressSpace)
    (hrs : ∀ r ∈ rs, lo ≤ r.begin ∧ r.begin < r.stop ∧ r.stop ≤ hi) :
    lo + (rs.map Range.size).sum ≤ hi := by
  induction rs generalizing lo with
  | nil => exact hlo
  | cons r rest ih =>
    obtain ⟨hr, hrest⟩ := pairwise_cons.mp hpair
    obtain ⟨hbegin, hne, hstop⟩ := hrs r mem_cons_self
    have hsize : r.size = r.stop - r.begin := by
      unfold Range.size
      rw [show r.stop + addressSpace - r.begin = r.stop - r.begin + addressSpace by omega,
        Nat.add_mod_right, Nat.mod_eq_of_lt (by omega)]
    have hsum := ih hrest hstop fun x hx =>
      ⟨hr x hx, (hrs x (mem_cons_of_mem _ hx)).2⟩
    rw [map_cons, sum_cons]
    omega

section
variable (h : w.Fits) (hm : SameHeap w m)
include h hm

theorem Fits.leaks_ordered : (leaks m.allocations).Pairwise fun a b => a.stop ≤ b.begin :=
  pairwise_map.mpr ((h.ordered.congr hm.ranges_eq).1.filter _)

theorem Fits.leaks_bounds (hr : r ∈ leaks m.allocations) :
    r ∈ w.ranges ∧ r.begin < r.stop ∧ r.stop ≤ lastWord := by
  obtain ⟨e, he, rfl⟩ := mem_map.mp hr
  have hmem := (mem_filter.mp he).1
  have hrange : e.1 ∈ w.ranges := hm.ranges_eq ▸ mem_map_of_mem hmem
  exact ⟨hrange, (h.ordered.congr hm.ranges_eq).2 e hmem, (h.clear_of_mem hrange).2⟩

/-- `Leaked` of a walker with the ranges of `w`: the entries without a mark, and their
bytes without wrapping. -/
theorem Fits.leaked_eq {limit : Nat} (hlimit : w.allocations.length ≤ limit) :
    m.leaked limit = ⟨leaks m.allocations, (leaks m.allocations).length,
      ((leaks m.allocations).map Range.size).sum⟩ := by
  have hlength : m.allocations.length = w.allocations.length := by
    have hlen := congrArg length hm.ranges_eq
    simpa [ranges] using hlen
  have hle : (leaks m.allocations).length ≤ limit := by
    unfold leaks
    rw [length_map]
    exact Nat.le_trans (length_filter_le _ _) (by omega)
  have hsum : 0 + ((leaks m.allocations).map Range.size).sum ≤ lastWord := by
    apply sum_size_le (h.leaks_ordered hm) (Nat.zero_le _) (by decide)
    intro r hr
    exact ⟨Nat.zero_le _, (h.leaks_bounds hm hr).2⟩
  have hlast : lastWord < addressSpace := by decide
  unfold leaked
  rw [foldl_countLeak _ _ (by decide), foldl_listLeak, Nat.sub_zero,
    take_of_length_le hle, nil_append, Nat.zero_add, Nat.mod_eq_of_lt (by omega),
    Nat.zero_add]

/-- Without the marks of the reachable allocations, the others are left. -/
theorem Fits.mem_leaks_iff (hmarked : ∀ a ∈ w.ranges, marks.isMarked m a = true ↔ w.Reachable p a) :
    a ∈ leaks m.allocations ↔ a ∈ w.ranges ∧ ¬ w.Reachable p a := by
  have hordered := h.ordered.congr hm.ranges_eq
  unfold leaks
  simp only [mem_map, mem_filter, Bool.not_eq_true']
  constructor
  · rintro ⟨e, ⟨he, hflag⟩, rfl⟩
    have hmem : e.1 ∈ w.ranges := hm.ranges_eq ▸ mem_map_of_mem he
    refine ⟨hmem, ?_⟩
    rw [← hmarked e.1 hmem, isMarked_of_mem hordered he, hflag]
    decide
  · rintro ⟨hmem, hnot⟩
    rw [← hmarked a hmem] at hnot
    rw [← hm.ranges_eq] at hmem
    obtain ⟨e, he, rfl⟩ := mem_map.mp hmem
    rw [isMarked_of_mem hordered he] at hnot
    exact ⟨e, ⟨he, Bool.eq_false_iff.mpr hnot⟩, rfl⟩

end

/-- Every sequence of calls that keeps clear of the last word of the address space, and
every content of the memory: `DetectLeaks` ends, and `Leaked` then reports the registered
allocations that are not reachable, each once, with their number and their total size. -/
theorem leaked_exact (p : Process) (cs : List Call) (hcs : ∀ c ∈ cs, c.InBounds)
    (hp : (calls cs).ValsInBounds p) :
    ∃ enough, ∀ bound ≥ enough, ∃ w, (calls cs).detectLeaks p bound = some w ∧
      ∀ limit ≥ (calls cs).allocations.length,
        (w.leaked limit).leaked.Nodup ∧
        (∀ a, a ∈ (w.leaked limit).leaked ↔
          a ∈ registered cs ∧ ¬ (calls cs).Reachable p a) ∧
        (w.leaked limit).numLeaks = (w.leaked limit).leaked.length ∧
        (w.leaked limit).leakBytes = ((w.leaked limit).leaked.map Range.size).sum := by
  obtain ⟨hfits, hregistered⟩ := fits_calls hcs
  refine ⟨addressSpace + (calls cs).ranges.length + 2, ?_⟩
  intro bound hbound
  obtain ⟨w, hdetect, hsame, hmarked⟩ := hfits.detectLeaks hp hbound
  refine ⟨w, hdetect, ?_⟩
  intro limit hlimit
  have hordered := hfits.ordered.congr hsame.ranges_eq
  rw [hfits.leaked_eq hsame hlimit]
  refine ⟨hordered.nodup.sublist (filter_sublist.map _), ?_, rfl, rfl⟩
  intro a
  rw [← hregistered a]
  exact hfits.mem_leaks_iff hsame hmarked

/-- Three allocations, one registration that overlaps the second, and a root. -/
def chainCalls : List Call :=
  [.allocation 0x1000 0x1010, .allocation 0x2000 0x2008, .allocation 0x3000 0x3008,
    .allocation 0x2004 0x2010, .root 0x500 0x508]

/-- The root points into the first allocation, which points to the second. -/
def chainProcess : Process where
  word addr := if addr = 0x500 then 0x1004 else if addr = 0x1008 then 0x2000 else 0
  rootValsData := 0x100

theorem chain_inBounds : (∀ c ∈ chainCalls, c.InBounds) ∧
    (calls chainCalls).ValsInBounds chainProcess := by
  unfold ValsInBounds
  exact ⟨by simp [chainCalls, Call.InBounds, lastWord, addressSpace, wordSize], by decide +kernel⟩

theorem leaked_exact_chain : ∃ bound w,
    (calls chainCalls).detectLeaks chainProcess bound = some w ∧
      ∀ a, a ∈ (w.leaked 3).leaked ↔
        a ∈ registered chainCalls ∧ ¬ (calls chainCalls).Reachable chainProcess a := by
  obtain ⟨bound, h⟩ := leaked_exact chainProcess chainCalls chain_inBounds.1 chain_inBounds.2
  obtain ⟨w, hdetect, hleaked⟩ := h bound (Nat.le_refl _)
  exact ⟨bound, w, hdetect, (hleaked 3 (by decide +kernel)).2.1⟩

/-! ### The last word -/

/-- A range up to the last address is scanned for ever: the address wraps to 0. -/
theorem forEachPtrLoop_wraps {σ : Type} (p : Process) (walker : σ → HeapWalker)
    (f : σ → Range × AllocationInfo → σ) (fuel : Nat) {i : Nat} (hdvd : 8 ∣ i)
    (hi : i < addressSpace) (s : σ) :
    forEachPtrLoop p walker f (addressSpace - 1) fuel i s = none := by
  induction fuel generalizing i s with
  | zero => rfl
  | succ fuel ih =>
    have hspace : addressSpace = 8 * 2 ^ 61 := by decide
    have hnext : 8 ∣ (i + 8) % addressSpace := by
      rw [hspace]
      omega
    unfold forEachPtrLoop
    rw [if_pos (by omega)]
    exact ih hnext (Nat.mod_lt _ (by decide)) _

/-- `RecurseRoot` from a range that reaches into the last word does not return. -/
theorem recurseRoot_wraps (p : Process) (bound : Nat) (w : HeapWalker) :
    recurseRoot p bound w ⟨addressSpace - 8, addressSpace - 1⟩ = none := by
  cases bound with
  | zero => rfl
  | succ bound =>
    have hscan := forEachPtrLoop_wraps p Prod.fst markReferenced (bound + 1)
      (show 8 ∣ alignedBegin ⟨addressSpace - 8, addressSpace - 1⟩ by decide)
      (by decide) (w, [])
    show (forEachPtrInRange p Prod.fst markReferenced (bound + 1)
      ⟨addressSpace - 8, addressSpace - 1⟩ (w, [])).bind _ = none
    unfold forEachPtrInRange
    rw [hscan]
    rfl

/-- A root that reaches into the last word of the address space: `DetectLeaks` does not
return. -/
theorem lastWordRoot_not_detected : ¬ ∃ bound w,
    (calls [.root (addressSpace - 8) (addressSpace - 1)]).detectLeaks chainProcess bound
      = some w := by
  rintro ⟨bound, w, hdetect⟩
  have hnone : (calls [.root (addressSpace - 8) (addressSpace - 1)]).detectLeaks
      chainProcess bound = none := by
    show (foldlM (recurseRoot chainProcess bound) _
      [⟨addressSpace - 8, addressSpace - 1⟩]).bind _ = none
    rw [foldlM_cons, recurseRoot_wraps]
    rfl
  rw [hnone] at hdetect
  cases hdetect

end HeapWalker

end AndroidCore.Libmemunreachable
