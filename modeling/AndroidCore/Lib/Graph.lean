import AndroidCore.Lib.CountP
import Mathlib.Data.Finset.Card

/-!
# `AndroidCore.Lib.Graph`: reachability, components and depth-first search

A graph is the list of the successors of each node. Two nodes are in one strongly connected
component if each reaches the other (`Mutual`). A component without an edge from another one
is a source: whatever reaches it is in it (`NoIncoming.reaches`). In a graph with finitely
many nodes every node is reached from a source (`exists_source`).

`dfs` is the depth-first search that a recursive function with a mark for each node makes.
`dfs_spec` says which nodes it adds to those it has seen: nodes that the start reaches, and
with each of them its successors. From nothing seen, these are all nodes that the start
reaches (`dfs_nil`).
-/

namespace AndroidCore.Lib.Graph

open List

variable {ν : Type}

/-- Reachable along any number of edges. -/
abbrev Reaches (out : ν → List ν) : ν → ν → Prop := Relation.ReflTransGen fun a b => b ∈ out a

/-- In one strongly connected component. -/
def Mutual (out : ν → List ν) (x y : ν) : Prop := Reaches out x y ∧ Reaches out y x

variable {out : ν → List ν} {x y : ν}

theorem Mutual.symm (h : Mutual out x y) : Mutual out y x := ⟨h.2, h.1⟩

theorem Mutual.trans {z : ν} (hxy : Mutual out x y) (hyz : Mutual out y z) : Mutual out x z :=
  ⟨hxy.1.trans hyz.1, hyz.2.trans hxy.2⟩

/-- What is closed under the edges is closed under reachability. -/
theorem Reaches.mem_of_closed {S : ν → Prop} (hclosed : ∀ a, S a → ∀ b ∈ out a, S b)
    (h : Reaches out x y) (hx : S x) : S y := by
  induction h with
  | refl => exact hx
  | tail _ hedge ih => exact hclosed _ ih _ hedge

/-- A path out of a set has an edge that leaves it. -/
theorem Reaches.exists_leaving {S : ν → Prop} (h : Reaches out x y) (hx : S x) (hy : ¬ S y) :
    ∃ a b, S a ∧ ¬ S b ∧ b ∈ out a ∧ Reaches out x a ∧ Reaches out b y := by
  induction h using Relation.ReflTransGen.head_induction_on with
  | refl => exact absurd hx hy
  | @head a b hedge hpath ih =>
    by_cases hb : S b
    · obtain ⟨c, d, hc, hd, hcd, hbc, hdy⟩ := ih hb
      exact ⟨c, d, hc, hd, hcd, hbc.head hedge, hdy⟩
    · exact ⟨a, b, hx, hb, hedge, .refl, hpath⟩

/-- The strongly connected components of the nodes that `roots` reach, in reverse topological
order: each of these nodes is in exactly one, two are in the same one if each reaches the
other, and no component reaches one that comes after it. -/
structure SccList (out : ν → List ν) (roots : List ν) (cs : List (List ν)) : Prop where
  nodup : cs.flatten.Nodup
  mem : ∀ x, x ∈ cs.flatten ↔ ∃ r ∈ roots, Reaches out r x
  component : ∀ c ∈ cs, c ≠ [] ∧ ∀ x ∈ c, ∀ y, y ∈ c ↔ Mutual out x y
  ordered : cs.Pairwise fun c d => ∀ x ∈ c, ∀ y ∈ d, ¬ Reaches out x y

/-! ### Sources -/

/-- No edge from a node outside of the component leads into the component of `x`. -/
def NoIncoming (out : ν → List ν) (nodes : List ν) (x : ν) : Prop :=
  ∀ a ∈ nodes, ∀ b ∈ out a, Mutual out b x → Mutual out a x

variable {nodes : List ν}

/-- Every node is reached from a source. -/
theorem exists_source (hx : x ∈ nodes) : ∃ y ∈ nodes, Reaches out y x ∧ NoIncoming out nodes y := by
  classical
  -- by induction over the number of nodes that reach `x`
  generalize hn : (nodes.toFinset.filter fun z => Reaches out z x).card = n
  induction n using Nat.strong_induction_on generalizing x with
  | _ n ih =>
    by_cases hsource : NoIncoming out nodes x
    · exact ⟨x, hx, .refl, hsource⟩
    · -- a node `a` outside of the component that reaches `x`
      unfold NoIncoming at hsource
      push Not at hsource
      obtain ⟨a, ha, b, hb, hmutual, hnot⟩ := hsource
      have hax : Reaches out a x := hmutual.1.head hb
      have hxa : ¬ Reaches out x a := fun hxa => hnot ⟨hax, hxa⟩
      have hlt : (nodes.toFinset.filter fun z => Reaches out z a).card < n := by
        rw [← hn]
        apply Finset.card_lt_card
        rw [Finset.ssubset_iff_of_subset]
        · refine ⟨x, ?_, ?_⟩
          · exact Finset.mem_filter.mpr ⟨mem_toFinset.mpr hx, .refl⟩
          · intro hmem
            exact hxa (Finset.mem_filter.mp hmem).2
        · intro z hz
          obtain ⟨hmem, hza⟩ := Finset.mem_filter.mp hz
          exact Finset.mem_filter.mpr ⟨hmem, hza.trans hax⟩
      obtain ⟨y, hy, hya, hsource⟩ := ih _ hlt ha rfl
      exact ⟨y, hy, hya.trans hax, hsource⟩

/-! ### Depth-first search -/

variable [DecidableEq ν]

/-- The nodes seen after a search from `x`. -/
def dfs (out : ν → List ν) : Nat → ν → List ν → Option (List ν)
  | 0, _, _ => none
  | fuel + 1, x, seen =>
    if x ∈ seen then some seen
    else (out x).foldlM (fun seen y => dfs out fuel y seen) (x :: seen)

/-- The number of nodes that are not seen. -/
def unseen (nodes seen : List ν) : Nat := nodes.countP fun x => x ∉ seen

theorem unseen_cons {seen : List ν} (hnodes : nodes.Nodup) (hx : x ∈ nodes) (hnew : x ∉ seen) :
    unseen nodes (x :: seen) + 1 = unseen nodes seen := by
  apply countP_add_one hnodes hx
  · exact decide_eq_true hnew
  · exact decide_eq_false (not_not.mpr mem_cons_self)
  · intro b _ hne
    simp [hne]

theorem unseen_append_le (nodes new seen : List ν) :
    unseen nodes (new ++ seen) ≤ unseen nodes seen := by
  apply countP_mono_left
  intro x _ hx
  have hnot := of_decide_eq_true hx
  exact decide_eq_true fun hmem => hnot (mem_append_right _ hmem)

/-- What a search adds: `new` is reached from one of `starts`, without repetition, and the
successors of its nodes are seen, too. -/
structure Adds (out : ν → List ν) (starts new seen : List ν) : Prop where
  nodup : (new ++ seen).Nodup
  reached : ∀ y ∈ new, ∃ x ∈ starts, Reaches out x y
  closed : ∀ y ∈ new, ∀ z ∈ out y, z ∈ new ++ seen
  starts_mem : ∀ x ∈ starts, x ∈ new ++ seen

section
variable (hnodes : nodes.Nodup) (hout : ∀ a ∈ nodes, ∀ b ∈ out a, b ∈ nodes) (hx : x ∈ nodes)
include hnodes hout hx

/-- A search with enough fuel returns, and adds what it should. -/
theorem dfs_spec {fuel : Nat} {seen : List ν} (hseen : seen.Nodup)
    (hfuel : unseen nodes seen < fuel) :
    ∃ new, dfs out fuel x seen = some (new ++ seen) ∧ Adds out [x] new seen := by
  induction fuel generalizing x seen with
  | zero => omega
  | succ fuel ih =>
    unfold dfs
    by_cases hmem : x ∈ seen
    · rw [if_pos hmem]
      refine ⟨[], rfl, hseen, nofun, nofun, ?_⟩
      intro y hy
      rw [mem_singleton.mp hy]
      exact hmem
    · rw [if_neg hmem]
      -- the loop over the successors
      have hloop : ∀ (l : List ν), (∀ y ∈ l, y ∈ nodes) → ∀ seen : List ν, seen.Nodup →
          unseen nodes seen < fuel → ∃ new,
            l.foldlM (fun seen y => dfs out fuel y seen) seen = some (new ++ seen) ∧
            Adds out l new seen := by
        intro l
        induction l with
        | nil =>
          intro _ seen hseen _
          exact ⟨[], rfl, hseen, nofun, nofun, nofun⟩
        | cons y rest ihl =>
          intro hl seen hseen hfuel
          obtain ⟨new₁, hrun₁, h₁⟩ := ih (hl y mem_cons_self) hseen hfuel
          have hle := unseen_append_le nodes new₁ seen
          obtain ⟨new₂, hrun₂, h₂⟩ := ihl (fun z hz => hl z (mem_cons_of_mem _ hz))
            (new₁ ++ seen) h₁.nodup (by omega)
          refine ⟨new₂ ++ new₁, ?_, ?_, ?_, ?_, ?_⟩
          · rw [foldlM_cons, hrun₁, append_assoc]
            exact hrun₂
          · rw [append_assoc]
            exact h₂.nodup
          · intro z hz
            rcases mem_append.mp hz with hz | hz
            · obtain ⟨w, hw, hreach⟩ := h₂.reached z hz
              exact ⟨w, mem_cons_of_mem _ hw, hreach⟩
            · obtain ⟨w, hw, hreach⟩ := h₁.reached z hz
              rw [mem_singleton.mp hw] at hreach
              exact ⟨y, mem_cons_self, hreach⟩
          · intro z hz w hw
            rw [append_assoc]
            rcases mem_append.mp hz with hz | hz
            · exact h₂.closed z hz w hw
            · exact mem_append_right _ (h₁.closed z hz w hw)
          · intro z hz
            rw [append_assoc]
            rcases mem_cons.mp hz with rfl | hz
            · exact mem_append_right _ (h₁.starts_mem z (mem_singleton_self _))
            · exact h₂.starts_mem z hz
      have hcount := unseen_cons hnodes hx hmem
      obtain ⟨new, hrun, h⟩ := hloop (out x) (hout x hx) (x :: seen)
        (nodup_cons.mpr ⟨hmem, hseen⟩) (by omega)
      have hassoc : new ++ x :: seen = (new ++ [x]) ++ seen := by simp
      refine ⟨new ++ [x], ?_, ?_, ?_, ?_, ?_⟩
      · rw [hrun, hassoc]
      · rw [← hassoc]
        exact h.nodup
      · intro y hy
        refine ⟨x, mem_singleton_self _, ?_⟩
        rcases mem_append.mp hy with hy | hy
        · obtain ⟨z, hz, hreach⟩ := h.reached y hy
          exact hreach.head hz
        · rw [mem_singleton.mp hy]
      · intro y hy z hz
        rw [← hassoc]
        rcases mem_append.mp hy with hy | hy
        · exact h.closed y hy z hz
        · rw [mem_singleton.mp hy] at hz
          exact h.starts_mem z hz
      · intro y hy
        rw [mem_singleton.mp hy, ← hassoc]
        exact mem_append_right _ mem_cons_self

/-- From nothing seen, a search sees the nodes that its start reaches. -/
theorem dfs_nil {fuel : Nat} (hfuel : nodes.length < fuel) :
    ∃ seen, dfs out fuel x [] = some seen ∧ seen.Nodup ∧ ∀ y, y ∈ seen ↔ Reaches out x y := by
  have hunseen : unseen nodes [] ≤ nodes.length := countP_le_length
  have hlt : unseen nodes [] < fuel := by omega
  obtain ⟨new, hrun, h⟩ := dfs_spec hnodes hout hx nodup_nil hlt
  have hnil : new ++ [] = new := append_nil new
  refine ⟨new ++ [], hrun, h.nodup, ?_⟩
  intro y
  rw [hnil]
  constructor
  · intro hy
    obtain ⟨z, hz, hreach⟩ := h.reached y hy
    rw [mem_singleton.mp hz] at hreach
    exact hreach
  · intro hreach
    refine hreach.mem_of_closed ?_ ?_
    · intro a ha b hb
      exact hnil ▸ h.closed a ha b hb
    · exact hnil ▸ h.starts_mem x (mem_singleton_self _)

end

end AndroidCore.Lib.Graph
