import AndroidCore.Proofs.Libmemunreachable.ComputeDAG
import AndroidCore.Proofs.Libmemunreachable.DetectLeaks
import Mathlib.Algebra.Order.BigOperators.Group.List

/-!
# `AndroidCore.Proofs.Libmemunreachable.LeakFolding`: every leak is accounted for

`AccumulateLeaks` walks the components from a dominator and marks them with it. The walk is
the depth-first search of `Lib.Graph` with the marks of this dominator as the nodes that were
seen (`walk_eq`). The marks of earlier dominators are other marks, so a component that two
dominators share is counted for each of them, and once (`Folded`).

`foldGraph_spec` is the result for a graph of leaks: what is reported are the leaks of the
components without references from others, each with the number and the size of the other
leaks it reaches, and every leak is reached from a reported one.
-/

namespace AndroidCore.Libmemunreachable.LeakFolding

open Lib.Graph List

/-! ### `AccumulateLeaks` -/

/-- What the walk does at a component that it has not seen. -/
def visit (dominator i : Nat) (f : LeakFolding) : LeakFolding :=
  let f := f.modify i fun info => { info with accumulator := some dominator }
  f.modify dominator fun info => { info with
    cuumulativeSize := (info.cuumulativeSize + (f.info i).size) % addressSpace
    cuumulativeCount := info.cuumulativeCount + (f.info i).count }

/-- The components `new` are visited, the last one first. -/
def absorb (dominator : Nat) (new : List Nat) (f : LeakFolding) : LeakFolding :=
  new.foldr (visit dominator) f

section Absorb

variable (d : Nat) (new : List Nat) (f : LeakFolding)

theorem visit_info (i k : Nat) : (visit d i f).info k = { f.info k with
    accumulator := if k = i then some d else (f.info k).accumulator
    cuumulativeCount := if k = d then (f.info k).cuumulativeCount + (f.info i).count
      else (f.info k).cuumulativeCount
    cuumulativeSize := if k = d then ((f.info k).cuumulativeSize + (f.info i).size) % addressSpace
      else (f.info k).cuumulativeSize } := by
  by_cases hkd : k = d
  · subst hkd
    by_cases hki : k = i
    · subst hki
      simp [visit, modify]
    · simp [visit, modify, hki]
  · by_cases hki : k = i
    · subst hki
      simp [visit, modify, hkd]
    · simp [visit, modify, hkd, hki]

theorem absorb_frame : (absorb d new f).leaks = f.leaks ∧ (absorb d new f).scc = f.scc := by
  induction new with
  | nil => exact ⟨rfl, rfl⟩
  | cons i new ih => exact ih

/-- The marks and the sums of the dominator after the visits. -/
theorem absorb_info (hsize : (f.info d).cuumulativeSize < addressSpace) (k : Nat) :
    (absorb d new f).info k = { f.info k with
      accumulator := if k ∈ new then some d else (f.info k).accumulator
      cuumulativeCount := if k = d then
          (f.info k).cuumulativeCount + (new.map fun i => (f.info i).count).sum
        else (f.info k).cuumulativeCount
      cuumulativeSize := if k = d then
          ((f.info k).cuumulativeSize + (new.map fun i => (f.info i).size).sum) % addressSpace
        else (f.info k).cuumulativeSize } := by
  induction new generalizing k with
  | nil =>
    by_cases hk : k = d
    · subst hk
      simp [absorb, Nat.mod_eq_of_lt hsize]
    · simp [absorb, hk]
  | cons i new ih =>
    show (visit d i (absorb d new f)).info k = _
    rw [visit_info, ih k, ih i]
    by_cases hk : k = d
    · subst hk
      by_cases hki : k = i
      · simp [hki, Nat.add_comm, Nat.add_left_comm]
      · simp [hki, Nat.add_comm, Nat.add_left_comm]
    · by_cases hki : k = i
      · subst hki
        simp [hk]
      · simp [hk, hki]

end Absorb

/-- The components with the mark of the dominator are the ones that were seen. -/
def Marks (d : Nat) (f : LeakFolding) (seen : List Nat) : Prop :=
  ∀ j, (f.info j).accumulator = some d ↔ j ∈ seen

section Walk

variable {d : Nat} {f : LeakFolding}

section
variable (hsize : (f.info d).cuumulativeSize < addressSpace) (new : List Nat)
include hsize

theorem Marks.absorb {seen : List Nat} (h : Marks d f seen) :
    Marks d (absorb d new f) (new ++ seen) := by
  intro j
  rw [absorb_info d new f hsize, mem_append, ← h j]
  by_cases hj : j ∈ new
  · simp [hj]
  · simp [hj]

theorem absorb_sccOut : (absorb d new f).sccOut = f.sccOut := by
  funext k
  rw [sccOut, absorb_info d new f hsize, sccOut]

theorem absorb_size_lt : ((absorb d new f).info d).cuumulativeSize < addressSpace := by
  rw [absorb_info d new f hsize]
  simp only [↓reduceIte]
  exact Nat.mod_lt _ (by decide)

end

/-- The walk is the depth-first search with the marks of the dominator. -/
theorem walk_eq {out : Nat → List Nat} {fuel i : Nat} {seen seen' : List Nat}
    (hout : f.sccOut = out) (hmarks : Marks d f seen)
    (hsize : (f.info d).cuumulativeSize < addressSpace) (hdfs : dfs out fuel i seen = some seen') :
    ∃ new, seen' = new ++ seen ∧ walk d fuel f i = some (absorb d new f) := by
  induction fuel generalizing f i seen seen' with
  | zero => cases hdfs
  | succ fuel ih =>
    rw [dfs] at hdfs
    rw [walk]
    by_cases hi : i ∈ seen
    · rw [if_pos hi, Option.some.injEq] at hdfs
      rw [if_pos ((hmarks i).mpr hi)]
      exact ⟨[], hdfs.symm, rfl⟩
    · rw [if_neg hi] at hdfs
      rw [if_neg fun h => hi ((hmarks i).mp h)]
      -- the loop over the references
      have hloop : ∀ (l : List Nat) (g : LeakFolding) (seen seen' : List Nat),
          g.sccOut = out → Marks d g seen → (g.info d).cuumulativeSize < addressSpace →
          l.foldlM (fun seen y => dfs out fuel y seen) seen = some seen' →
          ∃ new, seen' = new ++ seen ∧ l.foldlM (walk d fuel) g = some (absorb d new g) := by
        intro l
        induction l with
        | nil =>
          intro g seen seen' _ _ _ hrun
          exact ⟨[], (Option.some.inj hrun).symm, rfl⟩
        | cons y l ihl =>
          intro g seen seen' hg hm hs hrun
          rw [foldlM_cons] at hrun
          cases hy : dfs out fuel y seen with
          | none => rw [hy] at hrun; cases hrun
          | some seen₁ =>
            rw [hy] at hrun
            obtain ⟨new₁, rfl, hwalk⟩ := ih hg hm hs hy
            obtain ⟨new₂, rfl, hrest⟩ := ihl (absorb d new₁ g) _ _
              ((absorb_sccOut hs new₁).trans hg) (hm.absorb hs new₁) (absorb_size_lt hs new₁)
              hrun
            refine ⟨new₂ ++ new₁, (append_assoc ..).symm, ?_⟩
            rw [foldlM_cons, hwalk]
            show l.foldlM (walk d fuel) (absorb d new₁ g) = _
            rw [hrest, absorb, absorb, absorb, foldr_append]
      have hvisit : (visit d i f) = absorb d [i] f := rfl
      have hrefs :
          ((f.modify i fun info => { info with accumulator := some d }).info i).referencesOut =
            out i := by
        rw [← hout]
        simp [modify, sccOut]
      obtain ⟨new, hseen, hrun⟩ := hloop (out i) (absorb d [i] f) (i :: seen) seen'
        ((absorb_sccOut hsize [i]).trans hout) (hmarks.absorb hsize [i]) (absorb_size_lt hsize [i])
        hdfs
      refine ⟨new ++ [i], by rw [hseen]; simp, ?_⟩
      simp only [hrefs]
      show (out i).foldlM (walk d fuel) (visit d i f) = _
      rw [hvisit, hrun, absorb, absorb, absorb, foldr_append]

end Walk

/-! ### The last loop of `FoldLeaks` -/

/-- The state after the components `done` of the last loop. `f₀` is the state before it. -/
structure Folded (f₀ : LeakFolding) (done : List Nat) (f : LeakFolding) : Prop where
  leaks : f.leaks = f₀.leaks
  scc : f.scc = f₀.scc
  sccOut : f.sccOut = f₀.sccOut
  same : ∀ k, (f.info k).referencesIn = (f₀.info k).referencesIn ∧
    (f.info k).count = (f₀.info k).count ∧ (f.info k).size = (f₀.info k).size
  dominator : ∀ k, (f.info k).dominator = true ↔ k ∈ done ∧ (f₀.info k).referencesIn = []
  marks : ∀ k d, (f.info k).accumulator = some d → d ∈ done
  zero : ∀ k, k ∉ done → (f.info k).cuumulativeCount = 0 ∧ (f.info k).cuumulativeSize = 0
  sums : ∀ k ∈ done, (f₀.info k).referencesIn = [] → ∃ seen : List Nat, seen.Nodup ∧
    (∀ j, j ∈ seen ↔ Reaches f₀.sccOut k j) ∧
    (f.info k).cuumulativeCount = (seen.map fun j => (f₀.info j).count).sum ∧
    (f.info k).cuumulativeSize = (seen.map fun j => (f₀.info j).size).sum % addressSpace

namespace Folded

variable {f₀ f : LeakFolding} {done : List Nat} {bound i : Nat}

/-- A component that others refer to is passed over. -/
theorem skip (h : Folded f₀ done f) (hin : (f₀.info i).referencesIn ≠ []) (hi : i ∉ done) :
    Folded f₀ (done ++ [i]) f where
  leaks := h.leaks
  scc := h.scc
  sccOut := h.sccOut
  same := h.same
  dominator k := by
    rw [h.dominator, mem_append, mem_singleton]
    constructor
    · rintro ⟨hk, hnone⟩
      exact ⟨.inl hk, hnone⟩
    · rintro ⟨hk | rfl, hnone⟩
      · exact ⟨hk, hnone⟩
      · exact absurd hnone hin
  marks k d hd := mem_append_left _ (h.marks k d hd)
  zero k hk := h.zero k fun hmem => hk (mem_append_left _ hmem)
  sums k hk hnone := by
    rcases mem_append.mp hk with hk | hk
    · exact h.sums k hk hnone
    · rw [mem_singleton] at hk
      exact absurd (hk ▸ hnone) hin

/-- A component that none refers to becomes a dominator. -/
theorem walk (h : Folded f₀ done f) (hnone : (f₀.info i).referencesIn = []) (hi : i ∉ done)
    {n : Nat} (hlt : i < n) (hclosed : ∀ k, ∀ j ∈ f₀.sccOut k, j < n) (hbound : n < bound) :
    ∃ f', LeakFolding.walk i bound (f.modify i fun info => { info with dominator := true }) i
      = some f' ∧ Folded f₀ (done ++ [i]) f' := by
  obtain ⟨seen, hdfs, hnodup, hseen⟩ := dfs_nil (nodup_range)
    (fun a _ b hb => mem_range.mpr (hclosed a b hb)) (mem_range.mpr hlt)
    (by rwa [length_range])
  -- the state the walk starts from: no component has a mark of `i`, and its sums are 0
  have hzero := h.zero i hi
  generalize hg : f.modify i (fun info => { info with dominator := true }) = g
  have hinfo : ∀ k, g.info k = { f.info k with
      dominator := if k = i then true else (f.info k).dominator } := by
    intro k
    subst hg
    by_cases hk : k = i
    · subst hk
      simp [modify]
    · simp [modify, hk]
  have hout : g.sccOut = f₀.sccOut := by
    rw [← h.sccOut]
    funext k
    rw [LeakFolding.sccOut, hinfo, LeakFolding.sccOut]
  have hmarks : Marks i g [] := by
    intro j
    rw [hinfo]
    simp only [not_mem_nil, iff_false]
    exact fun hj => hi (h.marks j i hj)
  have hsize : (g.info i).cuumulativeSize < addressSpace := by
    rw [hinfo, show (f.info i).cuumulativeSize = 0 from hzero.2]
    decide
  obtain ⟨new, hnew, hwalk⟩ := walk_eq hout hmarks hsize hdfs
  rw [append_nil] at hnew
  subst hnew
  refine ⟨_, hwalk, ?_⟩
  have habsorb := absorb_info i seen g hsize
  have hcount : (seen.map fun j => (g.info j).count) = seen.map fun j => (f₀.info j).count :=
    map_congr_left fun j _ => by rw [hinfo]; exact (h.same j).2.1
  have hsizes : (seen.map fun j => (g.info j).size) = seen.map fun j => (f₀.info j).size :=
    map_congr_left fun j _ => by rw [hinfo]; exact (h.same j).2.2
  rw [hcount, hsizes] at habsorb
  refine ⟨?_, ?_, ?_, ?_, ?_, ?_, ?_, ?_⟩
  · rw [(absorb_frame i seen g).1, ← hg]
    exact h.leaks
  · rw [(absorb_frame i seen g).2, ← hg]
    exact h.scc
  · rw [absorb_sccOut hsize seen]
    exact hout
  · intro k
    rw [habsorb, hinfo]
    exact h.same k
  · intro k
    rw [habsorb, hinfo]
    by_cases hk : k = i
    · simp [hk, hnone]
    · simp [hk, h.dominator]
  · intro k d hd
    rw [habsorb, hinfo] at hd
    simp only at hd
    split at hd
    · rw [Option.some.injEq] at hd
      simp [hd]
    · exact mem_append_left _ (h.marks k d hd)
  · intro k hk
    have hki : k ≠ i := fun h => hk (by simp [h])
    rw [habsorb, hinfo]
    simp only [hki]
    exact h.zero k fun hmem => hk (mem_append_left _ hmem)
  · intro k hk hknone
    rw [habsorb, hinfo]
    by_cases hki : k = i
    · subst hki
      simp only [hzero.1, hzero.2, Nat.zero_add]
      exact ⟨seen, hnodup, hseen, rfl, rfl⟩
    · have hmem : k ∈ done := by simpa [hki] using hk
      simp only [hki]
      exact h.sums k hmem hknone

/-- The loop over some components. -/
theorem foldlM {n : Nat} (hclosed : ∀ k, ∀ j ∈ f₀.sccOut k, j < n) (hbound : n < bound)
    (todo : List Nat) (htodo : ∀ i ∈ todo, i < n) (hnodup : (done ++ todo).Nodup)
    (h : Folded f₀ done f) :
    ∃ f', todo.foldlM (dominate bound) f = some f' ∧ Folded f₀ (done ++ todo) f' := by
  induction todo generalizing done f with
  | nil => exact ⟨f, rfl, by rwa [append_nil]⟩
  | cons i todo ih =>
    have hi : i ∉ done := by
      rw [nodup_append] at hnodup
      exact fun hmem => hnodup.2.2 i hmem i mem_cons_self rfl
    have hstep : ∃ f₁, dominate bound f i = some f₁ ∧ Folded f₀ (done ++ [i]) f₁ := by
      rw [dominate]
      by_cases hnone : (f₀.info i).referencesIn = []
      · rw [if_pos (by rw [(h.same i).1, hnone]; rfl)]
        exact h.walk hnone hi (htodo i mem_cons_self) hclosed hbound
      · rw [if_neg (by rw [(h.same i).1]; exact fun hlen => hnone (length_eq_zero_iff.mp hlen))]
        exact ⟨f, rfl, h.skip hnone hi⟩
    obtain ⟨f₁, hrun, h₁⟩ := hstep
    rw [append_cons] at hnodup ⊢
    obtain ⟨f₂, hrest, h₂⟩ := ih (fun j hj => htodo j (mem_cons_of_mem _ hj)) hnodup h₁
    refine ⟨f₂, ?_, h₂⟩
    rw [foldlM_cons, hrun]
    exact hrest

end Folded

/-! ### The report -/

/-- The graph of some leaks, as `leak_map_` holds them: the ranges are disjoint and in order,
and they refer to each other. -/
structure Proper (graph : List (Range × List Range)) : Prop where
  ordered : (graph.map Prod.fst).Pairwise fun a b => a.stop ≤ b.begin
  bounds : ∀ r ∈ graph.map Prod.fst, r.begin < r.stop ∧ r.stop < addressSpace
  closed : ∀ e ∈ graph, ∀ b ∈ e.2, b ∈ graph.map Prod.fst

namespace Proper

variable {graph : List (Range × List Range)}

theorem nodup (h : Proper graph) : (graph.map Prod.fst).Nodup := by
  refine h.ordered.imp_of_mem ?_
  intro a b ha _ hab heq
  have hne := (h.bounds a ha).1
  rw [← heq] at hab
  omega

theorem references_closed (h : Proper graph) (a : Range) :
    ∀ b ∈ (ofGraph graph).references a, b ∈ graph.map Prod.fst := by
  intro b hb
  change b ∈ (graph.lookup a).getD [] at hb
  cases hlook : graph.lookup a with
  | none =>
    rw [hlook] at hb
    cases hb
  | some refs =>
    rw [hlook] at hb
    obtain ⟨before, after, hgraph, -⟩ := lookup_eq_some_iff.mp hlook
    have hmem : (a, refs) ∈ graph := by simp [hgraph]
    exact h.closed _ hmem b hb

/-- The sizes of all leaks together fit the address space. -/
theorem sum_size_lt (h : Proper graph) :
    ((graph.map Prod.fst).map Range.size).sum < addressSpace := by
  have hsum : 0 + ((graph.map Prod.fst).map Range.size).sum ≤ addressSpace - 1 := by
    apply HeapWalker.sum_size_le h.ordered (Nat.zero_le _) (by decide)
    intro r hr
    have hbounds := h.bounds r hr
    exact ⟨Nat.zero_le _, hbounds.1, by omega⟩
  have hpos : 0 < addressSpace := by decide
  omega

end Proper

/-- What is reported accounts for every leak. -/
structure Accounts (out : Range → List Range) (leaks : List Range) (f : LeakFolding) : Prop where
  /-- The leaks of the components without references from others, each once. -/
  reported : ∀ r, r ∈ f.leaked.map Leak.range ↔ r ∈ leaks ∧ NoIncoming out leaks r
  once : (f.leaked.map Leak.range).Nodup
  /-- The number and the size of the other leaks that one reaches. -/
  referenced : ∀ l ∈ f.leaked, ∃ others : List Range, others.Nodup ∧
    (∀ r, r ∈ others ↔ r ∈ leaks ∧ r ≠ l.range ∧ Reaches out l.range r) ∧
    l.referencedCount = others.length ∧ l.referencedSize = (others.map Range.size).sum
  /-- A reported leak leads to every leak. -/
  reached : ∀ r ∈ leaks, ∃ l ∈ f.leaked, Reaches out l.range r

/-- The state after `ComputeDAG`, before the last loop. -/
theorem Condensed.folded_nil {out : Range → List Range} {leaks : List Range}
    {cs : List (List Range)} {f : LeakFolding} (h : Condensed out leaks cs f) : Folded f [] f := by
  have hinfo : ∀ k, (f.info k).dominator = false ∧ (f.info k).accumulator = none ∧
      (f.info k).cuumulativeCount = 0 ∧ (f.info k).cuumulativeSize = 0 := by
    intro k
    obtain ⟨ins, outs, hk⟩ := h.info k
    rw [hk]
    exact ⟨rfl, rfl, rfl, rfl⟩
  refine ⟨rfl, rfl, rfl, fun _ => ⟨rfl, rfl, rfl⟩, ?_, ?_, fun k _ => (hinfo k).2.2, ?_⟩
  · intro k
    simp [(hinfo k).1]
  · intro k d hd
    rw [(hinfo k).2.1] at hd
    cases hd
  · intro k hk
    cases hk

section Report

variable {out : Range → List Range} {leaks : List Range} {cs : List (List Range)}
  {f₀ f : LeakFolding}

/-- The leaks of some components. -/
theorem Components.nodup_flatMap (hcs : Components out leaks cs) (h : Condensed out leaks cs f₀)
    {seen : List Nat} (hseen : seen.Nodup) : (seen.flatMap (cs.getD · [])).Nodup := by
  rw [List.nodup_flatMap]
  constructor
  · intro i _
    cases hc : cs[i]? with
    | none => simp [hc]
    | some c =>
      rw [getD_eq_getElem?_getD, hc]
      exact (nodup_flatten.mp hcs.nodup).1 c (mem_of_getElem? hc)
  · refine hseen.imp ?_
    intro i j hij r hi hj
    exact hij (((h.mem_getD_iff hcs).mp hi).2.symm.trans ((h.mem_getD_iff hcs).mp hj).2)

/-- Distinct leaks have at most the size of all. -/
theorem sum_size_le_of_subset {rs : List Range} (hrs : rs.Nodup) (hsub : rs ⊆ leaks) :
    (rs.map Range.size).sum ≤ (leaks.map Range.size).sum := by
  obtain ⟨rs', hperm, hsublist⟩ := subperm_of_subset hrs hsub
  rw [← (hperm.map Range.size).sum_nat]
  exact (hsublist.map Range.size).sum_le_sum (fun _ _ => Nat.zero_le _)

/-- The sums of a dominator are those of the leaks that its leaks reach. -/
theorem Folded.referenced (h : Condensed out leaks cs f₀) (hcs : Components out leaks cs)
    (hclosed : ∀ a ∈ leaks, ∀ b ∈ out a, b ∈ leaks)
    (hsize : (leaks.map Range.size).sum < addressSpace) {done : List Nat}
    (hf : Folded f₀ done f) {r : Range} (hr : r ∈ leaks) (hdone : f₀.scc r ∈ done)
    (hnone : (f₀.info (f₀.scc r)).referencesIn = []) :
    ∃ all : List Range, all.Nodup ∧ (∀ x, x ∈ all ↔ x ∈ leaks ∧ Reaches out r x) ∧
      (f.info (f₀.scc r)).cuumulativeCount = all.length ∧
      (f.info (f₀.scc r)).cuumulativeSize = (all.map Range.size).sum := by
  obtain ⟨seen, hseen, hmem, hcount, htotal⟩ := hf.sums _ hdone hnone
  have hall : ∀ x, x ∈ seen.flatMap (cs.getD · []) ↔ x ∈ leaks ∧ Reaches out r x := by
    intro x
    rw [mem_flatMap]
    constructor
    · rintro ⟨j, hj, hx⟩
      obtain ⟨hxl, rfl⟩ := (h.mem_getD_iff hcs).mp hx
      exact ⟨hxl, (h.reaches_iff hcs hclosed hr hxl).mpr ((hmem _).mp hj)⟩
    · rintro ⟨hxl, hreach⟩
      exact ⟨f₀.scc x, (hmem _).mpr ((h.reaches_iff hcs hclosed hr hxl).mp hreach),
        (h.mem_getD_iff hcs).mpr ⟨hxl, rfl⟩⟩
  have hnodup := hcs.nodup_flatMap h hseen
  have hle := sum_size_le_of_subset hnodup fun x hx => ((hall x).mp hx).1
  have hcounts :
      (seen.map fun j => (f₀.info j).count) = seen.map fun j => (cs.getD j []).length := by
    apply map_congr_left
    intro j _
    obtain ⟨ins, outs, hj⟩ := h.info j
    rw [hj]
    rfl
  have hsizes : (seen.map fun j => (f₀.info j).size)
      = (seen.map fun j => ((cs.getD j []).map Range.size).sum).map (· % addressSpace) := by
    rw [map_map]
    apply map_congr_left
    intro j _
    obtain ⟨ins, outs, hj⟩ := h.info j
    rw [hj]
    rfl
  refine ⟨_, hnodup, hall, ?_, ?_⟩
  · rw [hcount, hcounts, length_flatMap]
  · have hsum : (seen.map fun j => ((cs.getD j []).map Range.size).sum).sum
        = ((seen.flatMap (cs.getD · [])).map Range.size).sum := by
      rw [flatMap_def, map_flatten, sum_flatten, map_map, map_map]
      rfl
    rw [htotal, hsizes, ← sum_nat_mod, hsum, Nat.mod_eq_of_lt (by omega)]

/-- The report of a folding that is done. -/
theorem Folded.accounts {graph : List (Range × List Range)} (hgraph : Proper graph)
    (hcs : Components (ofGraph graph).references (graph.map Prod.fst) cs)
    (h : Condensed (ofGraph graph).references (graph.map Prod.fst) cs f₀)
    (hf : Folded f₀ (List.range f₀.sccs) f) :
    Accounts (ofGraph graph).references (graph.map Prod.fst) f := by
  have hnodup := hgraph.nodup
  have hsize := hgraph.sum_size_lt
  have hclosed : ∀ a ∈ graph.map Prod.fst, ∀ b ∈ (ofGraph graph).references a,
      b ∈ graph.map Prod.fst := fun a _ => hgraph.references_closed a
  generalize (ofGraph graph).references = out at hcs h hclosed ⊢
  generalize graph.map Prod.fst = leaks at hcs h hclosed hnodup hsize ⊢
  have hleaks : f.leaks = leaks := hf.leaks.trans h.leaks_eq
  have hdone : ∀ {r}, r ∈ leaks → f₀.scc r ∈ range f₀.sccs :=
    fun hr => mem_range.mpr (h.scc_lt hcs hr)
  have hdominator : ∀ {r}, r ∈ leaks →
      ((f.info (f.scc r)).dominator = true ↔ NoIncoming out leaks r) := by
    intro r hr
    rw [hf.scc, hf.dominator, ← h.referencesIn_iff hcs hclosed hr]
    exact and_iff_right (hdone hr)
  have hranges : f.leaked.map Leak.range
      = leaks.filter fun r => (f.info (f.scc r)).dominator := by
    rw [leaked, hleaks, map_map]
    exact map_id _
  have hreported : ∀ r, r ∈ f.leaked.map Leak.range ↔ r ∈ leaks ∧ NoIncoming out leaks r := by
    intro r
    rw [hranges, mem_filter]
    exact and_congr_right fun hr => hdominator hr
  refine ⟨hreported, hranges ▸ hnodup.filter _, ?_, ?_⟩
  · intro l hl
    obtain ⟨hr, hsource⟩ := (hreported l.range).mp (mem_map_of_mem hl)
    obtain ⟨r, hmem, rfl⟩ := mem_map.mp hl
    obtain ⟨all, hall, hmemall, hcount, htotal⟩ := hf.referenced h hcs hclosed hsize hr
      (hdone hr) ((h.referencesIn_iff hcs hclosed hr).mpr hsource)
    have hself : r ∈ all := (hmemall r).mpr ⟨hr, .refl⟩
    have hle := sum_size_le_of_subset hall fun x hx => ((hmemall x).mp hx).1
    have hsum := sum_map_erase Range.size hself
    refine ⟨all.erase r, hall.erase r, ?_, ?_, ?_⟩
    · intro x
      rw [hall.mem_erase_iff, hmemall]
      exact and_left_comm
    · show (f.info (f.scc r)).cuumulativeCount - 1 = _
      rw [hf.scc, hcount, length_erase_of_mem hself]
    · show ((f.info (f.scc r)).cuumulativeSize + addressSpace - r.size) % addressSpace = _
      rw [hf.scc, htotal, ← hsum,
        show r.size + ((all.erase r).map Range.size).sum + addressSpace - r.size
          = ((all.erase r).map Range.size).sum + addressSpace by omega,
        Nat.add_mod_right, Nat.mod_eq_of_lt (by omega)]
  · intro r hr
    -- a component that none refers to leads to the one of `r`
    obtain ⟨y, hy, hreach, hsource⟩ : ∃ y ∈ leaks, Reaches out y r ∧ NoIncoming out leaks y :=
      exists_source hr
    obtain ⟨l, hl, rfl⟩ := mem_map.mp ((hreported y).mpr ⟨hy, hsource⟩)
    exact ⟨l, hl, hreach⟩

end Report

/-- The fold of a graph: the components of its leaks, and the state of the last loop. -/
theorem Proper.foldGraph {addresses : Addresses} (hinj : Function.Injective addresses.scc)
    {graph : List (Range × List Range)} (hgraph : Proper graph) {bound : Nat}
    (hbound : graph.length < bound) :
    ∃ cs f₀ f, LeakFolding.foldGraph addresses bound graph = some f ∧
      Components (ofGraph graph).references (graph.map Prod.fst) cs ∧
      Condensed (ofGraph graph).references (graph.map Prod.fst) cs f₀ ∧
      Folded f₀ (List.range f₀.sccs) f := by
  have hclosed : ∀ a ∈ graph.map Prod.fst, ∀ b ∈ (ofGraph graph).references a,
      b ∈ graph.map Prod.fst := fun a _ => hgraph.references_closed a
  obtain ⟨cs, f₀, hrun, hcs, h⟩ :=
    computeDAG_spec hinj hgraph.nodup hclosed (Nat.le_of_lt hbound)
  have hsccs : f₀.sccs < bound := by
    have hle := hcs.length_le
    rw [length_map] at hle
    rw [h.sccs]
    omega
  obtain ⟨f, hloop, hf⟩ := Folded.foldlM (fun k j => h.out_lt hcs hclosed) hsccs
    (range f₀.sccs) (fun i => mem_range.mp) nodup_range h.folded_nil
  refine ⟨cs, f₀, f, ?_, hcs, h, hf⟩
  rw [LeakFolding.foldGraph, hrun]
  exact hloop

/-- Every graph of references among leaks: `FoldLeaks` ends, and what `Leaked` reports then
accounts for every leak. -/
theorem foldGraph_accounts {addresses : Addresses} (hinj : Function.Injective addresses.scc)
    {graph : List (Range × List Range)} (hgraph : Proper graph) {bound : Nat}
    (hbound : graph.length < bound) :
    ∃ f, foldGraph addresses bound graph = some f ∧
      Accounts (ofGraph graph).references (graph.map Prod.fst) f := by
  obtain ⟨cs, f₀, f, hrun, hcs, h, hf⟩ := hgraph.foldGraph hinj hbound
  exact ⟨f, hrun, hf.accounts hgraph hcs h⟩

/-- Two leaks in a cycle, the first one with a reference to itself, and another one; the
second and the last refer to a leak that both share. -/
def sharedGraph : List (Range × List Range) :=
  let a : Range := ⟨0x1000, 0x1010⟩
  let b : Range := ⟨0x2000, 0x2008⟩
  let c : Range := ⟨0x3000, 0x3020⟩
  let d : Range := ⟨0x4000, 0x4008⟩
  [(a, [a, b]), (b, [a, c]), (c, []), (d, [c])]

/-- The nodes in the order in which they are made. -/
def inOrder : Addresses where
  leak r := r.begin
  scc i := i

theorem foldGraph_accounts_shared : ∃ f, foldGraph inOrder 5 sharedGraph = some f ∧
    Accounts (ofGraph sharedGraph).references (sharedGraph.map Prod.fst) f := by
  have hproper : Proper sharedGraph := ⟨by decide, by decide, by decide⟩
  exact foldGraph_accounts (fun _ _ h => h) hproper (by decide)

/-- Every graph of references among leaks: `ComputeDAG` ends. Two leaks are in one component exactly
when each reaches the other, and components reach what their leaks reach. The graph of the
components has no cycle: no component refers to itself, and no two of them reach each other. -/
theorem computeDAG_condenses {addresses : Addresses} (hinj : Function.Injective addresses.scc)
    {graph : List (Range × List Range)} (hgraph : Proper graph) {bound : Nat}
    (hbound : graph.length ≤ bound) :
    ∃ f, computeDAG addresses bound (ofGraph graph) = some f ∧
      ∀ a ∈ graph.map Prod.fst, f.scc a ∉ f.sccOut (f.scc a) ∧ ∀ b ∈ graph.map Prod.fst,
        (f.scc a = f.scc b ↔ Mutual (ofGraph graph).references a b) ∧
        (Reaches f.sccOut (f.scc a) (f.scc b) ↔ Reaches (ofGraph graph).references a b) ∧
        (Mutual f.sccOut (f.scc a) (f.scc b) → f.scc a = f.scc b) := by
  obtain ⟨cs, f, hrun, hcs, h⟩ :=
    computeDAG_spec hinj hgraph.nodup (fun a _ => hgraph.references_closed a) hbound
  refine ⟨f, hrun, fun a ha => ⟨?_, fun b hb => ?_⟩⟩
  · -- `ComputeDAG` connects only leaks of different components
    intro hself
    obtain ⟨_, _, _, _, hne, hfrom, hto⟩ := (h.mem_out _ _).mp hself
    exact hne (hfrom.trans hto.symm)
  · have hmutual := h.mutual_iff hcs ha hb
    have hto := h.reaches_iff hcs (fun a _ => hgraph.references_closed a) ha hb
    have hfrom := h.reaches_iff hcs (fun a _ => hgraph.references_closed a) hb ha
    refine ⟨hmutual.symm, hto.symm, ?_⟩
    rintro ⟨hab, hba⟩
    exact hmutual.mp ⟨hto.mpr hab, hfrom.mpr hba⟩

theorem computeDAG_condenses_shared :
    ∃ f, computeDAG inOrder 4 (ofGraph sharedGraph) = some f ∧
      ∀ a ∈ sharedGraph.map Prod.fst, f.scc a ∉ f.sccOut (f.scc a) ∧
        ∀ b ∈ sharedGraph.map Prod.fst,
          (f.scc a = f.scc b ↔ Mutual (ofGraph sharedGraph).references a b) ∧
          (Reaches f.sccOut (f.scc a) (f.scc b) ↔ Reaches (ofGraph sharedGraph).references a b) ∧
          (Mutual f.sccOut (f.scc a) (f.scc b) → f.scc a = f.scc b) := by
  have hproper : Proper sharedGraph := ⟨by decide, by decide, by decide⟩
  have hinj : Function.Injective inOrder.scc := fun _ _ heq => heq
  exact computeDAG_condenses hinj hproper (Nat.le_refl 4)

end AndroidCore.Libmemunreachable.LeakFolding
