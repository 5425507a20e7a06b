import AndroidCore.Proofs.Libmemunreachable.LeakFolding
import Mathlib.Data.Nat.Pairing

/-!
# `AndroidCore.Proofs.Libmemunreachable.FoldLeaks`: from the heap to the report

`FoldLeaks` builds the graph that it folds from a walker: its nodes are the allocations
without a mark, and the references of a node are what the words of its range point to. For a
walker after `DetectLeaks` the nodes are the allocations that no root reaches, and the graph
is `Proper` (`leakGraph_spec`), so the report accounts for exactly these
(`foldLeaks_accounts`).
-/

namespace AndroidCore.Libmemunreachable.LeakFolding

open HeapWalker List

/-! ### The references of a leak -/

/-- The callback of `FoldLeaks`: a leak that a word points to becomes a reference. -/
def addReference (address : Range → Nat) (s : HeapWalker × List Range)
    (ref : Range × AllocationInfo) : HeapWalker × List Range :=
  if ref.2.referencedFromRoot then s else (s.1, emplace address ref.1 s.2)

variable {address : Range → Nat}

/-- The words at some addresses: the walker stays, and the leaks that they point to are
added. -/
theorem foldl_addReference (hinj : Function.Injective address) (m : HeapWalker) (p : Process)
    (addrs : List Nat) (set : List Range) :
    ∃ refs, addrs.foldl (fun s i => forEachPtrStep p Prod.fst (addReference address) i s) (m, set)
        = (m, refs) ∧
      ∀ b, b ∈ refs ↔ b ∈ set ∨ ∃ i ∈ addrs, ∃ e, m.wordContainsAllocationPtr p i = some e ∧
        e.2.referencedFromRoot = false ∧ e.1 = b := by
  induction addrs generalizing set with
  | nil => exact ⟨set, rfl, by simp⟩
  | cons i addrs ih =>
    have hstep : ∃ set', forEachPtrStep p Prod.fst (addReference address) i (m, set)
        = (m, set') ∧ ∀ b, b ∈ set' ↔ b ∈ set ∨
          ∃ e, m.wordContainsAllocationPtr p i = some e ∧
            e.2.referencedFromRoot = false ∧ e.1 = b := by
      rw [forEachPtrStep]
      cases hword : m.wordContainsAllocationPtr p i with
      | none => exact ⟨set, rfl, by simp⟩
      | some e =>
        show ∃ set', addReference address (m, set) e = (m, set') ∧ _
        cases hflag : e.2.referencedFromRoot with
        | true => exact ⟨set, by simp [addReference, hflag], by simp [hflag]⟩
        | false =>
          refine ⟨emplace address e.1 set, by simp [addReference, hflag], ?_⟩
          intro b
          rw [mem_emplace hinj, or_comm]
          simp [hflag, eq_comm (a := b)]
    obtain ⟨set', hrun, hset'⟩ := hstep
    obtain ⟨refs, hrest, hrefs⟩ := ih set'
    refine ⟨refs, ?_, ?_⟩
    · rw [foldl_cons, hrun]
      exact hrest
    · intro b
      rw [hrefs, hset', or_assoc]
      simp

/-- The references of a range are the leaks that it refers to. -/
theorem findReferences_spec {w m : HeapWalker} (h : w.Fits) (hm : SameHeap w m) (p : Process)
    (hinj : Function.Injective address) {bound : Nat} (hbound : addressSpace ≤ bound) {r : Range}
    (hr : Clear r) :
    ∃ refs, findReferences address m p bound r = some refs ∧
      ∀ b, b ∈ refs ↔ b ∈ HeapWalker.leaks m.allocations ∧ w.Refers p r b := by
  obtain ⟨refs, hrun, hrefs⟩ :=
    foldl_addReference hinj m p (scanned ((r.begin + 7) / 8 * 8) r.stop) []
  refine ⟨refs, ?_, ?_⟩
  · show (forEachPtrInRange p Prod.fst (addReference address) bound r (m, [])).map Prod.snd = _
    rw [forEachPtrInRange_eq p Prod.fst _ hbound hr, hrun]
    rfl
  · intro b
    rw [hrefs]
    simp only [not_mem_nil, false_or, mem_scanned, h.wordContains_iff hm, HeapWalker.leaks,
      mem_map, mem_filter, Bool.not_eq_true']
    constructor
    · rintro ⟨i, hi, e, ⟨he, hin⟩, hflag, rfl⟩
      have hrange : e.1 ∈ w.ranges := hm.ranges_eq ▸ mem_map_of_mem he
      exact ⟨⟨e, ⟨he, hflag⟩, rfl⟩, hrange, i, hi.1, hi.2, hin⟩
    · rintro ⟨⟨e, ⟨he, hflag⟩, rfl⟩, -, i, hdvd, hi, hin⟩
      exact ⟨i, ⟨hdvd, hi⟩, e, ⟨he, hin⟩, hflag, rfl⟩

/-! ### The graph -/

/-- `mapM` in `Option`, when every element has a value. -/
theorem mapM_eq_some_map {α β : Type} {f : α → Option β} {g : α → β} {l : List α}
    (h : ∀ a ∈ l, f a = some (g a)) : l.mapM f = some (l.map g) := by
  induction l with
  | nil => rfl
  | cons a l ih =>
    rw [mapM_cons, h a mem_cons_self, ih fun x hx => h x (mem_cons_of_mem _ hx)]
    rfl

/-- The graph of a walker: the leaks, and what they refer to. -/
theorem leakGraph_spec {w m : HeapWalker} (h : w.Fits) (hm : SameHeap w m) (p : Process)
    (hinj : Function.Injective address) {bound : Nat} (hbound : addressSpace ≤ bound) :
    ∃ graph, leakGraph address m p bound = some graph ∧ Proper graph ∧
      graph.map Prod.fst = HeapWalker.leaks m.allocations ∧
      ∀ a ∈ HeapWalker.leaks m.allocations, ∀ b, b ∈ (ofGraph graph).references a ↔
        b ∈ HeapWalker.leaks m.allocations ∧ w.Refers p a b := by
  have hfind : ∀ a, ∃ refs, a ∈ HeapWalker.leaks m.allocations →
      findReferences address m p bound a = some refs ∧
        ∀ b, b ∈ refs ↔ b ∈ HeapWalker.leaks m.allocations ∧ w.Refers p a b := by
    intro a
    by_cases ha : a ∈ HeapWalker.leaks m.allocations
    · obtain ⟨refs, hrefs⟩ := findReferences_spec h hm p hinj hbound
        (h.clear_of_mem (h.leaks_bounds hm ha).1)
      exact ⟨refs, fun _ => hrefs⟩
    · exact ⟨[], fun hmem => absurd hmem ha⟩
  choose refs hrefs using hfind
  have hkeys : ((HeapWalker.leaks m.allocations).map fun a => (a, refs a)).map Prod.fst
      = HeapWalker.leaks m.allocations := by
    rw [map_map]
    exact map_id _
  refine ⟨(HeapWalker.leaks m.allocations).map fun a => (a, refs a), ?_, ⟨?_, ?_, ?_⟩, hkeys, ?_⟩
  · refine mapM_eq_some_map ?_
    intro a ha
    show (findReferences address m p bound a).bind _ = _
    rw [(hrefs a ha).1]
    rfl
  · rw [hkeys]
    exact h.leaks_ordered hm
  · intro r hr
    rw [hkeys] at hr
    have hbounds := (h.leaks_bounds hm hr).2
    have hlast : lastWord < addressSpace := by decide
    exact ⟨hbounds.1, by omega⟩
  · intro e he b hb
    obtain ⟨a, ha, rfl⟩ := mem_map.mp he
    rw [hkeys]
    exact (((hrefs a ha).2 b).mp hb).1
  · intro a ha b
    show b ∈ (lookup a _).getD [] ↔ _
    rw [lookup_graph refs ha]
    exact (hrefs a ha).2 b

/-- Every sequence of calls that keeps clear of the last word of the address space, and every
content of the memory: after `DetectLeaks`, `FoldLeaks` ends and its report accounts for the
registered allocations that are not reachable. -/
theorem foldLeaks_accounts {addresses : Addresses} (hleak : Function.Injective addresses.leak)
    (hscc : Function.Injective addresses.scc) (p : Process) (cs : List Call)
    (hcs : ∀ c ∈ cs, c.InBounds) (hp : (calls cs).ValsInBounds p) :
    ∃ enough, ∀ bound ≥ enough, ∃ w f leaks out,
      (calls cs).detectLeaks p bound = some w ∧ foldLeaks addresses w p bound = some f ∧
      (∀ a, a ∈ leaks ↔ a ∈ registered cs ∧ ¬ (calls cs).Reachable p a) ∧
      (∀ a ∈ leaks, ∀ b, b ∈ out a ↔ b ∈ leaks ∧ (calls cs).Refers p a b) ∧
      Accounts out leaks f := by
  obtain ⟨hfits, hregistered⟩ := fits_calls hcs
  refine ⟨addressSpace + (calls cs).ranges.length + 2, ?_⟩
  intro bound hbound
  obtain ⟨w, hdetect, hsame, hmarked⟩ := hfits.detectLeaks hp hbound
  obtain ⟨graph, hgraph, hproper, hkeys, hrefs⟩ :=
    leakGraph_spec hfits hsame p hleak (show addressSpace ≤ bound by omega)
  have hlength : graph.length < bound := by
    have hle : graph.length ≤ w.ranges.length := by
      rw [← length_map Prod.fst, hkeys]
      exact (filter_sublist.map _).length_le
    rw [hsame.ranges_eq] at hle
    omega
  obtain ⟨_, f₀, f, hfold, hcomponents, hcondensed, hfolded⟩ := hproper.foldGraph hscc hlength
  have haccounts := hfolded.accounts hproper hcomponents hcondensed
  rw [hkeys] at haccounts
  refine ⟨w, f, _, _, hdetect, ?_, ?_, hrefs, haccounts⟩
  · rw [foldLeaks, hgraph]
    exact hfold
  · intro a
    rw [← hregistered a]
    exact hfits.mem_leaks_iff hsame hmarked

/-- Leaks at different addresses. -/
def apart : Addresses where
  leak r := Nat.pair r.begin r.stop
  scc i := i

theorem foldLeaks_accounts_chain :
    ∃ bound w f, (calls chainCalls).detectLeaks chainProcess bound = some w ∧
      foldLeaks apart w chainProcess bound = some f := by
  have hleak : Function.Injective apart.leak := by
    rintro ⟨a, b⟩ ⟨c, d⟩ heq
    obtain ⟨rfl, rfl⟩ := Nat.pair_eq_pair.mp heq
    rfl
  obtain ⟨bound, h⟩ := foldLeaks_accounts hleak (fun _ _ heq => heq) chainProcess chainCalls
    chain_inBounds.1 chain_inBounds.2
  obtain ⟨w, f, -, -, hdetect, hfold, -⟩ := h bound (Nat.le_refl _)
  exact ⟨bound, w, f, hdetect, hfold⟩

end AndroidCore.Libmemunreachable.LeakFolding
