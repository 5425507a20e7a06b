import AndroidCore.Libmemunreachable.LeakFolding
import AndroidCore.Proofs.Libmemunreachable.Tarjan
import Mathlib.Algebra.BigOperators.Group.List.Basic
import Mathlib.Data.List.GetD

/-!
# `AndroidCore.Proofs.Libmemunreachable.ComputeDAG`: the graph of the components

`ComputeDAG` numbers the components that `Tarjan` returns, counts their leaks and connects
them. `Built` is the state after its first loop: the component of a leak, and the number and
the size of the leaks of each component. `Linked` is what the second loop adds: one component
refers to another one if a leak of the first refers to a leak of the second.

`Condensed` puts both together, and `Condensed.reaches_iff` is what they are for: a leak
reaches another one if and only if its component reaches the other's.
-/

namespace AndroidCore.Libmemunreachable.LeakFolding

open Lib.Graph List

/-! ### The first loop -/

section Join

variable (nodes : List Range) (f : LeakFolding)

theorem foldl_join_frame : (nodes.foldl join f).leaks = f.leaks ∧
    (nodes.foldl join f).references = f.references ∧ (nodes.foldl join f).sccs = f.sccs := by
  induction nodes generalizing f with
  | nil => exact ⟨rfl, rfl, rfl⟩
  | cons r nodes ih => exact ih (f.join r)

theorem foldl_join_scc (x : Range) :
    (nodes.foldl join f).scc x = if x ∈ nodes then f.sccs else f.scc x := by
  induction nodes generalizing f with
  | nil => rfl
  | cons r nodes ih =>
    have hscc : (f.join r).scc x = if x = r then f.sccs else f.scc x := by
      simp [join, modify, Function.update_apply]
    rw [foldl_cons, ih (f.join r), hscc]
    by_cases hx : x ∈ nodes
    · simp [hx, join, modify]
    · by_cases hr : x = r
      · simp [hr, join, modify]
      · simp [hx]

theorem foldl_join_info_of_ne {i : Nat} (hi : i ≠ f.sccs) :
    (nodes.foldl join f).info i = f.info i := by
  induction nodes generalizing f with
  | nil => rfl
  | cons r nodes ih =>
    rw [foldl_cons, ih (f.join r) hi]
    simp [join, modify, hi]

/-- The last component has all of the nodes. -/
theorem foldl_join_info (hsize : (f.info f.sccs).size < addressSpace) :
    (nodes.foldl join f).info f.sccs = { f.info f.sccs with
      count := (f.info f.sccs).count + nodes.length
      size := ((f.info f.sccs).size + (nodes.map Range.size).sum) % addressSpace } := by
  induction nodes generalizing f with
  | nil => simp [Nat.mod_eq_of_lt hsize]
  | cons r nodes ih =>
    have hjoin : (f.join r).info f.sccs = { f.info f.sccs with
        count := (f.info f.sccs).count + 1
        size := ((f.info f.sccs).size + r.size) % addressSpace } := by
      simp [join, modify]
    have hlt : ((f.join r).info (f.join r).sccs).size < addressSpace := by
      show ((f.join r).info f.sccs).size < addressSpace
      rw [hjoin]
      exact Nat.mod_lt _ (by decide)
    have hrest := ih (f.join r) hlt
    show (foldl join (f.join r) nodes).info (f.join r).sccs = _
    rw [hrest]
    show { (f.join r).info f.sccs with
      count := ((f.join r).info f.sccs).count + nodes.length
      size := (((f.join r).info f.sccs).size + (nodes.map Range.size).sum) % addressSpace } = _
    rw [hjoin, length_cons, map_cons, sum_cons, Nat.mod_add_mod]
    simp [Nat.add_assoc, Nat.add_comm 1]

end Join

/-- What is known of a component after the first loop. -/
def componentInfo (nodes : List Range) : SCCInfo :=
  { SCCInfo.new with
    count := nodes.length
    size := (nodes.map Range.size).sum % addressSpace }

/-- The components `cs` are numbered and counted. -/
structure Built (cs : List (List Range)) (f : LeakFolding) : Prop where
  sccs : f.sccs = cs.length
  scc : ∀ i c, cs[i]? = some c → ∀ r ∈ c, f.scc r = i
  info : ∀ i, f.info i = componentInfo (cs.getD i [])

theorem Built.addComponent {cs : List (List Range)} {f : LeakFolding} (h : Built cs f)
    {c : List Range} (hnodup : (cs ++ [c]).flatten.Nodup) :
    Built (cs ++ [c]) (f.addComponent c) where
  sccs := by
    show (c.foldl join f).sccs + 1 = _
    rw [(foldl_join_frame c f).2.2, h.sccs, length_append, length_singleton]
  scc i d hd r hr := by
    show (c.foldl join f).scc r = i
    rw [foldl_join_scc, h.sccs]
    rcases Nat.lt_or_ge i cs.length with hi | hi
    · -- an earlier component has no node of the new one
      rw [getElem?_append_left hi] at hd
      have hmem : r ∈ cs.flatten := mem_flatten.mpr ⟨d, mem_of_getElem? hd, hr⟩
      rw [flatten_append, nodup_append] at hnodup
      have hnot : r ∉ c := fun hc => hnodup.2.2 r hmem r (by simpa using hc) rfl
      rw [if_neg hnot, h.scc i d hd r hr]
    · rw [getElem?_append_right hi, getElem?_singleton, Option.ite_none_right_eq_some] at hd
      obtain ⟨hzero, ⟨⟩⟩ := hd
      rw [if_pos hr]
      omega
  info i := by
    show (c.foldl join f).info i = _
    have hempty : f.info f.sccs = SCCInfo.new := by
      rw [h.info, h.sccs, getD_eq_default _ _ (Nat.le_refl _)]
      rfl
    by_cases hi : i = f.sccs
    · subst hi
      have hlast : (cs ++ [c]).getD f.sccs [] = c := by
        rw [h.sccs]
        simp
      rw [foldl_join_info c f (by rw [hempty]; decide), hempty, hlast]
      simp [componentInfo, SCCInfo.new]
    · rw [foldl_join_info_of_ne c f hi, h.info]
      rw [h.sccs] at hi
      rcases Nat.lt_or_gt_of_ne hi with hlt | hgt
      · rw [getD_append _ _ _ _ hlt]
      · rw [getD_eq_default _ _ (Nat.le_of_lt hgt), getD_eq_default _ _ (by simp; omega)]

/-- The first loop of `ComputeDAG`. -/
theorem built_foldl (graph : List (Range × List Range)) (cs : List (List Range))
    (hnodup : cs.flatten.Nodup) : Built cs (cs.foldl addComponent (ofGraph graph)) := by
  -- by induction over the components that are there already
  induction cs using reverseRecOn with
  | nil =>
    refine ⟨rfl, ?_, ?_⟩
    · intro i c hc
      simp at hc
    · simp [componentInfo, ofGraph, SCCInfo.new]
  | append_singleton cs c ih =>
    have hold : cs.flatten.Nodup := by
      rw [flatten_append, nodup_append] at hnodup
      exact hnodup.1
    rw [foldl_append]
    exact (ih hold).addComponent hnodup

theorem foldl_addComponent_frame (cs : List (List Range)) (f : LeakFolding) :
    (cs.foldl addComponent f).leaks = f.leaks ∧
      (cs.foldl addComponent f).references = f.references := by
  induction cs generalizing f with
  | nil => exact ⟨rfl, rfl⟩
  | cons c cs ih =>
    obtain ⟨hleaks, hrefs⟩ := ih (f.addComponent c)
    obtain ⟨hleaks', hrefs', -⟩ := foldl_join_frame c f
    exact ⟨hleaks.trans hleaks', hrefs.trans hrefs'⟩

/-! ### The second loop -/

theorem mem_emplace {α : Type} {address : α → Nat} (h : Function.Injective address) (x y : α)
    (set : List α) : y ∈ emplace address x set ↔ y = x ∨ y ∈ set := by
  induction set with
  | nil => simp [emplace]
  | cons z rest ih =>
    rw [emplace]
    split
    · simp
    split
    · simp only [mem_cons]
      tauto
    case isFalse hle hge =>
      have hsame : x = z := h (Nat.le_antisymm (Nat.le_of_not_lt hge) (Nat.le_of_not_lt hle))
      subst hsame
      simp

/-- The references of a component, as a node of the graph. -/
def sccOut (f : LeakFolding) (i : Nat) : List Nat := (f.info i).referencesOut

/-- `g` is `f` with the references `edges` between leaks added to the components. -/
structure Linked (edges : List (Range × Range)) (f g : LeakFolding) : Prop where
  leaks : g.leaks = f.leaks
  references : g.references = f.references
  scc : g.scc = f.scc
  sccs : g.sccs = f.sccs
  info : ∀ i, ∃ ins outs, g.info i =
    { f.info i with referencesIn := ins, referencesOut := outs }
  mem_out : ∀ i j, j ∈ g.sccOut i ↔ j ∈ f.sccOut i ∨
    ∃ e ∈ edges, f.scc e.1 ≠ f.scc e.2 ∧ f.scc e.1 = i ∧ f.scc e.2 = j
  mem_in : ∀ i j, i ∈ (g.info j).referencesIn ↔ i ∈ (f.info j).referencesIn ∨
    ∃ e ∈ edges, f.scc e.1 ≠ f.scc e.2 ∧ f.scc e.1 = i ∧ f.scc e.2 = j

namespace Linked

variable {edges edges' : List (Range × Range)} {f g h : LeakFolding}

theorem refl (f : LeakFolding) : Linked [] f f where
  leaks := rfl
  references := rfl
  scc := rfl
  sccs := rfl
  info i := ⟨_, _, rfl⟩
  mem_out i j := by simp
  mem_in i j := by simp

theorem trans (h₁ : Linked edges f g) (h₂ : Linked edges' g h) : Linked (edges ++ edges') f h where
  leaks := h₂.leaks.trans h₁.leaks
  references := h₂.references.trans h₁.references
  scc := h₂.scc.trans h₁.scc
  sccs := h₂.sccs.trans h₁.sccs
  info i := by
    obtain ⟨ins, outs, hg⟩ := h₁.info i
    obtain ⟨ins', outs', hh⟩ := h₂.info i
    exact ⟨ins', outs', by rw [hh, hg]⟩
  mem_out i j := by
    rw [h₂.mem_out, h₁.mem_out, h₁.scc, or_assoc]
    simp only [mem_append, or_and_right, exists_or]
  mem_in i j := by
    rw [h₂.mem_in, h₁.mem_in, h₁.scc, or_assoc]
    simp only [mem_append, or_and_right, exists_or]

variable {addresses : Addresses}

section

variable (hinj : Function.Injective addresses.scc)
include hinj

/-- One reference. -/
theorem connect (f : LeakFolding) (a b : Range) : Linked [(a, b)] f (f.connect addresses a b) := by
  by_cases hsame : f.scc a = f.scc b
  · rw [LeakFolding.connect, if_neg (not_not_intro hsame)]
    refine { refl f with mem_out := ?_, mem_in := ?_ }
    · simp [hsame]
    · simp [hsame]
  · rw [LeakFolding.connect, if_pos hsame]
    have hinfo : ∀ k, (f.edge addresses (f.scc a) (f.scc b)).info k =
        { f.info k with
          referencesOut := if k = f.scc a then emplace addresses.scc (f.scc b)
            (f.info k).referencesOut else (f.info k).referencesOut
          referencesIn := if k = f.scc b then emplace addresses.scc (f.scc a)
            (f.info k).referencesIn else (f.info k).referencesIn } := by
      intro k
      by_cases hka : k = f.scc a
      · simp [edge, modify, hka, hsame]
      · by_cases hkb : k = f.scc b
        · simp [edge, modify, hkb, Ne.symm hsame]
        · simp [edge, modify, hka, hkb]
    refine ⟨rfl, rfl, rfl, rfl, fun i => ⟨_, _, hinfo i⟩, ?_, ?_⟩
    · intro i j
      rw [sccOut, hinfo]
      by_cases hi : i = f.scc a
      · rw [if_pos hi, mem_emplace hinj, sccOut, or_comm]
        simp [hsame, hi, eq_comm]
      · rw [if_neg hi, sccOut]
        simp [Ne.symm hi]
    · intro i j
      rw [hinfo]
      by_cases hj : j = f.scc b
      · rw [if_pos hj, mem_emplace hinj, or_comm]
        simp [hsame, hj, eq_comm]
      · rw [if_neg hj]
        simp [Ne.symm hj]

/-- The references of one leak. -/
theorem references_of (a : Range) (refs : List Range) (f : LeakFolding) :
    Linked (refs.map fun b => (a, b)) f (refs.foldl (LeakFolding.connect addresses a) f) := by
  induction refs generalizing f with
  | nil => exact refl f
  | cons b refs ih => exact (connect hinj f a b).trans (ih _)

/-- The references of some leaks. -/
theorem references_all (leaks : List Range) (f : LeakFolding) :
    Linked (leaks.flatMap fun a => (f.references a).map fun b => (a, b)) f
      (leaks.foldl (fun f a => (f.references a).foldl (LeakFolding.connect addresses a) f) f) := by
  induction leaks generalizing f with
  | nil => exact refl f
  | cons a leaks ih =>
    have hfirst := references_of hinj a (f.references a) f
    have hrest := ih ((f.references a).foldl (LeakFolding.connect addresses a) f)
    rw [hfirst.references] at hrest
    exact hfirst.trans hrest

end

end Linked

/-! ### Leaks and components -/

/-- The strongly connected components of the leaks. -/
structure Components (out : Range → List Range) (leaks : List Range) (cs : List (List Range)) :
    Prop where
  nodup : cs.flatten.Nodup
  mem : ∀ x, x ∈ cs.flatten ↔ x ∈ leaks
  ne_nil : ∀ c ∈ cs, c ≠ []
  mem_same : ∀ c ∈ cs, ∀ x ∈ c, ∀ y, y ∈ c ↔ Mutual out x y

/-- There are no more components than leaks. -/
theorem Components.length_le {out : Range → List Range} {leaks : List Range}
    {cs : List (List Range)} (h : Components out leaks cs) : cs.length ≤ leaks.length := by
  have hone : ∀ n ∈ cs.map length, 1 ≤ n := by
    intro n hn
    obtain ⟨c, hc, rfl⟩ := mem_map.mp hn
    exact length_pos_iff.mpr (h.ne_nil c hc)
  have hsub : cs.flatten ⊆ leaks := fun x => (h.mem x).mp
  calc cs.length = (cs.map length).length := length_map _ |>.symm
    _ ≤ (cs.map length).sum := length_le_sum_of_one_le _ hone
    _ = cs.flatten.length := length_flatten.symm
    _ ≤ leaks.length := (subperm_of_subset h.nodup hsub).length_le

/-- The state after `ComputeDAG`: the components are counted and connected. -/
structure Condensed (out : Range → List Range) (leaks : List Range) (cs : List (List Range))
    (f : LeakFolding) : Prop where
  leaks_eq : f.leaks = leaks
  sccs : f.sccs = cs.length
  scc : ∀ i c, cs[i]? = some c → ∀ r ∈ c, f.scc r = i
  info : ∀ i, ∃ ins outs, f.info i =
    { componentInfo (cs.getD i []) with referencesIn := ins, referencesOut := outs }
  mem_out : ∀ i j, j ∈ f.sccOut i ↔
    ∃ a ∈ leaks, ∃ b ∈ out a, f.scc a ≠ f.scc b ∧ f.scc a = i ∧ f.scc b = j
  mem_in : ∀ i j, i ∈ (f.info j).referencesIn ↔
    ∃ a ∈ leaks, ∃ b ∈ out a, f.scc a ≠ f.scc b ∧ f.scc a = i ∧ f.scc b = j

/-- `ComputeDAG` returns, for a bound on its depth that covers the leaks. -/
theorem computeDAG_spec {addresses : Addresses} (hinj : Function.Injective addresses.scc)
    {graph : List (Range × List Range)} (hnodup : (graph.map Prod.fst).Nodup)
    (hclosed : ∀ a ∈ graph.map Prod.fst, ∀ b ∈ (ofGraph graph).references a,
      b ∈ graph.map Prod.fst)
    {bound : Nat} (hbound : graph.length ≤ bound) :
    ∃ cs f, computeDAG addresses bound (ofGraph graph) = some f ∧
      Components (ofGraph graph).references (graph.map Prod.fst) cs ∧
      Condensed (ofGraph graph).references (graph.map Prod.fst) cs f := by
  have hlength : (graph.map Prod.fst).length ≤ bound := by rwa [length_map]
  obtain ⟨cs, hrun, hcs, hmem, hsame⟩ := Tarjan.execute_spec hnodup hclosed hlength
  have hbuilt := built_foldl graph cs hcs
  obtain ⟨hleaks, hrefs⟩ := foldl_addComponent_frame cs (ofGraph graph)
  refine ⟨cs, (cs.foldl addComponent (ofGraph graph)).connectAll addresses, ?_,
    ⟨hcs, hmem, fun c hc => (hsame c hc).1, fun c hc => (hsame c hc).2⟩, ?_⟩
  · show (Tarjan.execute (ofGraph graph).references bound (ofGraph graph).leaks >>= _) = _
    rw [show (ofGraph graph).leaks = graph.map Prod.fst from rfl, hrun]
    rfl
  generalize cs.foldl addComponent (ofGraph graph) = f at hbuilt hleaks hrefs ⊢
  have hlinked := Linked.references_all hinj f.leaks f
  have hedge : ∀ i j : Nat,
      (∃ e ∈ f.leaks.flatMap fun a => (f.references a).map fun b => (a, b),
        f.scc e.1 ≠ f.scc e.2 ∧ f.scc e.1 = i ∧ f.scc e.2 = j) ↔
      ∃ a ∈ graph.map Prod.fst, ∃ b ∈ (ofGraph graph).references a,
        f.scc a ≠ f.scc b ∧ f.scc a = i ∧ f.scc b = j := by
    intro i j
    rw [hleaks, hrefs]
    constructor
    · rintro ⟨e, he, hrest⟩
      obtain ⟨a, ha, hab⟩ := mem_flatMap.mp he
      obtain ⟨b, hb, rfl⟩ := mem_map.mp hab
      exact ⟨a, ha, b, hb, hrest⟩
    · rintro ⟨a, ha, b, hb, hrest⟩
      exact ⟨(a, b), mem_flatMap.mpr ⟨a, ha, mem_map_of_mem hb⟩, hrest⟩
  refine ⟨hlinked.leaks.trans hleaks, hlinked.sccs.trans hbuilt.sccs, ?_, ?_, ?_, ?_⟩
  · intro i c hc r hr
    exact (congrFun hlinked.scc r).trans (hbuilt.scc i c hc r hr)
  · intro i
    obtain ⟨ins, outs, hinfo⟩ := hlinked.info i
    exact ⟨ins, outs, by rw [← hbuilt.info]; exact hinfo⟩
  · intro i j
    -- a component that was just built has no references
    have hnone : j ∉ f.sccOut i := by simp [sccOut, hbuilt.info, componentInfo, SCCInfo.new]
    have hout := hlinked.mem_out i j
    rw [hedge] at hout
    rw [show (f.connectAll addresses).scc = f.scc from hlinked.scc]
    exact hout.trans (or_iff_right hnone)
  · intro i j
    have hnone : i ∉ (f.info j).referencesIn := by
      simp [hbuilt.info, componentInfo, SCCInfo.new]
    have hin := hlinked.mem_in i j
    rw [hedge] at hin
    rw [show (f.connectAll addresses).scc = f.scc from hlinked.scc]
    exact hin.trans (or_iff_right hnone)

namespace Condensed

variable {out : Range → List Range} {leaks : List Range} {cs : List (List Range)} {f : LeakFolding}
  {r : Range}

section

variable (h : Condensed out leaks cs f) (hcs : Components out leaks cs)
include h hcs

/-- A leak is in the component that is noted for it. -/
theorem mem_component (hr : r ∈ leaks) : ∃ c, cs[f.scc r]? = some c ∧ r ∈ c := by
  obtain ⟨c, hc, hrc⟩ := mem_flatten.mp ((hcs.mem r).mpr hr)
  obtain ⟨i, hi⟩ := mem_iff_getElem?.mp hc
  rw [h.scc i c hi r hrc]
  exact ⟨c, hi, hrc⟩

theorem scc_lt (hr : r ∈ leaks) : f.scc r < f.sccs := by
  obtain ⟨c, hc, -⟩ := h.mem_component hcs hr
  rw [h.sccs]
  exact (List.getElem?_eq_some_iff.mp hc).1

/-- Two leaks are in one component if each reaches the other. -/
theorem mutual_iff {x : Range} (hr : r ∈ leaks) (hx : x ∈ leaks) :
    Mutual out r x ↔ f.scc r = f.scc x := by
  obtain ⟨c, hc, hrc⟩ := h.mem_component hcs hr
  obtain ⟨d, hd, hxd⟩ := h.mem_component hcs hx
  rw [← hcs.mem_same c (mem_of_getElem? hc) r hrc x]
  constructor
  · intro hxc
    exact (h.scc _ c hc x hxc).symm
  · intro hsame
    rw [hsame, hd, Option.some.injEq] at hc
    exact hc ▸ hxd

/-- The nodes of a component. -/
theorem mem_getD_iff {i : Nat} : r ∈ cs.getD i [] ↔ r ∈ leaks ∧ f.scc r = i := by
  constructor
  · intro hr
    cases hc : cs[i]? with
    | none => simp [hc] at hr
    | some c =>
      rw [getD_eq_getElem?_getD, hc] at hr
      exact ⟨(hcs.mem r).mp (mem_flatten.mpr ⟨c, mem_of_getElem? hc, hr⟩), h.scc i c hc r hr⟩
  · rintro ⟨hr, rfl⟩
    obtain ⟨c, hc, hrc⟩ := h.mem_component hcs hr
    rw [getD_eq_getElem?_getD, hc]
    exact hrc

variable (hclosed : ∀ a ∈ leaks, ∀ b ∈ out a, b ∈ leaks)
include hclosed

/-- A component refers to components. -/
theorem out_lt {i j : Nat} (hj : j ∈ f.sccOut i) : j < f.sccs := by
  obtain ⟨a, ha, b, hb, -, -, rfl⟩ := (h.mem_out i j).mp hj
  exact h.scc_lt hcs (hclosed a ha b hb)

/-- Leaks reach what their components reach. -/
theorem reaches_iff {x : Range} (hr : r ∈ leaks) (hx : x ∈ leaks) :
    Reaches out r x ↔ Reaches f.sccOut (f.scc r) (f.scc x) := by
  constructor
  · intro hpath
    induction hpath using Relation.ReflTransGen.head_induction_on with
    | refl => exact .refl
    | @head a b hedge _ ih =>
      have hb := hclosed a hr b hedge
      -- the step stays in the component, or it is one between components
      by_cases hsame : f.scc a = f.scc b
      · rw [hsame]
        exact ih hb
      · exact (ih hb).head ((h.mem_out _ _).mpr ⟨a, hr, b, hedge, hsame, rfl, rfl⟩)
  · intro hpath
    generalize hi : f.scc r = i at hpath
    induction hpath using Relation.ReflTransGen.head_induction_on generalizing r with
    | refl => exact ((h.mutual_iff hcs hr hx).mpr hi).1
    | @head i j hedge _ ih =>
      obtain ⟨a, ha, b, hb, -, hai, hbj⟩ := (h.mem_out i j).mp hedge
      have hra : Reaches out r a := ((h.mutual_iff hcs hr ha).mpr (hi.trans hai.symm)).1
      exact hra.trans ((ih (hclosed a ha b hb) hbj).head hb)

/-- A component has no references from others if and only if its leaks are sources. -/
theorem referencesIn_iff (hr : r ∈ leaks) :
    (f.info (f.scc r)).referencesIn = [] ↔ NoIncoming out leaks r := by
  rw [eq_nil_iff_forall_not_mem]
  constructor
  · intro hnone a ha b hb hmutual
    have hbr := (h.mutual_iff hcs (hclosed a ha b hb) hr).mp hmutual
    by_contra hnot
    have hne : f.scc a ≠ f.scc b := fun hab =>
      hnot ((h.mutual_iff hcs ha hr).mpr (hab.trans hbr))
    exact hnone (f.scc a) ((h.mem_in _ _).mpr ⟨a, ha, b, hb, hne, rfl, hbr⟩)
  · intro hsource i hi
    obtain ⟨a, ha, b, hb, hne, -, hbr⟩ := (h.mem_in _ _).mp hi
    have hmutual := (h.mutual_iff hcs (hclosed a ha b hb) hr).mpr hbr
    have har := (h.mutual_iff hcs ha hr).mp (hsource a ha b hb hmutual)
    exact hne (har.trans hbr.symm)

end

end Condensed

end AndroidCore.Libmemunreachable.LeakFolding
