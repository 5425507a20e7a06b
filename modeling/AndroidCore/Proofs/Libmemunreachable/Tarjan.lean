import AndroidCore.Lib.Graph
import AndroidCore.Libmemunreachable.Tarjan
import Mathlib.Data.Set.Finite.Basic

/-!
# `AndroidCore.Proofs.Libmemunreachable.Tarjan`: the components are right

The invariant `Inv` speaks of the nodes whose call of `Tarjan` has not returned, the list
`gray`. The stack is ordered by the index. A node on it reaches every node above it, and it
reaches a gray node that is not above it; so the stack above a gray node is one piece of a
component that is still growing. What has left the stack are whole components, and no edge
leads from them back to the stack.

`Loop` is the invariant of the loop over the references of a node `v`. The `lowlink` of `v`
is the index of a node on the stack that `v` reaches, and no edge from `v` or from a node
above it leads further down (`crossing`, `edges`). At the end of the loop, a `lowlink` that
is still the index of `v` means that no edge leaves the stack from `v` on downwards, and
that part of the stack is a component (`Loop.leave`).

`tarjan_spec` is the induction over the depth of the calls, and `execute_loop` the result:
the components of `Execute` are the strongly connected components of the graph, in reverse
topological order. `Execute` defines the `index` only of the nodes that the graph lists. A run
on nodes with values from before is compared with a fresh one (`Agree`): it needs the other
nodes that it reaches to be undefined (`executeOn_components`).
-/

namespace AndroidCore.Libmemunreachable.Tarjan

open Lib Lib.Graph List Function Option

variable {ν : Type} {out : ν → List ν} {nodes : List ν}

/-- A node that has an index. -/
def Visited (s : Tarjan ν) (x : ν) : Prop := s.indexOf x ≠ none

/-- The index of a node. -/
def num (s : Tarjan ν) (x : ν) : Nat := (s.indexOf x).getD 0

/-- The nodes that have left the stack. -/
def done (s : Tarjan ν) : List ν := s.components.flatten

/-- The invariant, with the nodes `gray` whose calls have not returned. -/
structure Inv (out : ν → List ν) (nodes gray : List ν) (s : Tarjan ν) : Prop where
  num_lt : ∀ x, s.Visited x → s.num x < s.index
  visited_mem : ∀ x, s.Visited x → x ∈ nodes
  sorted : s.stack.Pairwise fun x y => s.num y < s.num x
  stack_visited : ∀ x ∈ s.stack, s.Visited x
  gray_stack : ∀ x ∈ gray, x ∈ s.stack
  done_visited : ∀ x ∈ s.done, s.Visited x
  visited_cases : ∀ x, s.Visited x → x ∈ s.stack ∨ x ∈ s.done
  nodup : (s.done ++ s.stack).Nodup
  component : ∀ c ∈ s.components, c ≠ [] ∧ ∀ x ∈ c, ∀ y, y ∈ c ↔ Mutual out x y
  ordered : s.components.Pairwise fun c d => ∀ x ∈ c, ∀ y ∈ d, ¬ Reaches out x y
  done_closed : ∀ x ∈ s.done, ∀ y ∈ out x, y ∈ s.done
  black_closed : ∀ x, s.Visited x → x ∉ gray → ∀ y ∈ out x, s.Visited y
  older_reaches : ∀ x ∈ s.stack, ∀ y ∈ s.stack, s.num x ≤ s.num y → Reaches out x y
  reaches_gray : ∀ x ∈ s.stack, ∃ g ∈ gray, s.num g ≤ s.num x ∧ Reaches out x g

/-- A later state: indices stay, new nodes have larger ones, and the stack has grown. -/
structure Extends (s s' : Tarjan ν) : Prop where
  indexOf_eq : ∀ x, s.Visited x → s'.indexOf x = s.indexOf x
  new_num : ∀ x, ¬ s.Visited x → s'.Visited x → s.index ≤ s'.num x
  index_le : s.index ≤ s'.index
  stack_eq : ∃ new, s'.stack = new ++ s.stack ∧ ∀ x ∈ new, ¬ s.Visited x

namespace Extends

variable {s s' s'' : Tarjan ν}

theorem refl (s : Tarjan ν) : Extends s s where
  indexOf_eq := fun _ _ => rfl
  new_num := fun _ hnot h => absurd h hnot
  index_le := Nat.le_refl _
  stack_eq := ⟨[], rfl, nofun⟩

variable {x : ν}

section
variable (h : Extends s s')
include h

theorem visited (hx : s.Visited x) : s'.Visited x := by
  unfold Visited
  rw [h.indexOf_eq x hx]
  exact hx

theorem num_eq (hx : s.Visited x) : s'.num x = s.num x := by
  unfold num
  rw [h.indexOf_eq x hx]

theorem mem_stack (hx : x ∈ s.stack) : x ∈ s'.stack := by
  obtain ⟨new, hstack, -⟩ := h.stack_eq
  rw [hstack]
  exact mem_append_right _ hx

/-- A node on the new stack that was visited before was on the old one. -/
theorem mem_stack_of_visited (hx : x ∈ s'.stack) (hvisited : s.Visited x) : x ∈ s.stack := by
  obtain ⟨new, hstack, hnew⟩ := h.stack_eq
  rw [hstack] at hx
  exact (mem_append.mp hx).resolve_left fun hx => hnew x hx hvisited

theorem trans (h' : Extends s' s'') : Extends s s'' where
  indexOf_eq := fun x hx => (h'.indexOf_eq x (h.visited hx)).trans (h.indexOf_eq x hx)
  new_num := by
    intro x hnot hx
    by_cases hmid : s'.Visited x
    · rw [h'.num_eq hmid]
      exact h.new_num x hnot hmid
    · exact Nat.le_trans h.index_le (h'.new_num x hmid hx)
  index_le := Nat.le_trans h.index_le h'.index_le
  stack_eq := by
    obtain ⟨new, hstack, hnew⟩ := h.stack_eq
    obtain ⟨new', hstack', hnew'⟩ := h'.stack_eq
    refine ⟨new' ++ new, ?_, ?_⟩
    · rw [hstack', hstack, append_assoc]
    · exact forall_mem_append.mpr
        ⟨fun x hx hvisited => hnew' x hx (h.visited hvisited), hnew⟩

end

end Extends

/-! ### A node is entered -/

variable [DecidableEq ν]

section Enter

variable {s : Tarjan ν} {v : ν}

theorem indexOf_enter (s : Tarjan ν) (v x : ν) :
    (s.enter v).indexOf x = if x = v then some s.index else s.indexOf x :=
  update_apply ..

variable {x : ν}

theorem visited_enter : (s.enter v).Visited x ↔ x = v ∨ s.Visited x := by
  unfold Visited
  rw [indexOf_enter]
  by_cases hx : x = v
  · simp [hx]
  · simp [hx]

theorem num_enter_self (s : Tarjan ν) (v : ν) : (s.enter v).num v = s.index := by
  unfold num
  rw [indexOf_enter, if_pos rfl]
  rfl

theorem num_enter_of_ne (hx : x ≠ v) : (s.enter v).num x = s.num x := by
  unfold num
  rw [indexOf_enter, if_neg hx]

omit [DecidableEq ν] in
theorem ne_of_visited (hv : ¬ s.Visited v) (hx : s.Visited x) : x ≠ v := by
  rintro rfl
  exact hv hx

theorem extends_enter (hv : ¬ s.Visited v) : Extends s (s.enter v) where
  indexOf_eq := by
    intro x hx
    rw [indexOf_enter, if_neg (ne_of_visited hv hx)]
  new_num := by
    intro x hnot hx
    rcases visited_enter.mp hx with rfl | hx
    · rw [num_enter_self]
    · exact absurd hx hnot
  index_le := Nat.le_succ _
  stack_eq := ⟨[v], rfl, forall_mem_singleton.mpr hv⟩

theorem Inv.enter {gray : List ν} (h : Inv out nodes gray s) (hv : ¬ s.Visited v)
    (hmem : v ∈ nodes) (hgray : ∀ g ∈ gray, Reaches out g v) :
    Inv out nodes (v :: gray) (s.enter v) := by
  have hnum : ∀ x, s.Visited x → (s.enter v).num x = s.num x :=
    fun x hx => num_enter_of_ne (ne_of_visited hv hx)
  have hself := num_enter_self s v
  refine ⟨?_, ?_, ?_, ?_, ?_, ?_, ?_, ?_, h.component, h.ordered, h.done_closed, ?_, ?_, ?_⟩
  · intro x hx
    show _ < s.index + 1
    rcases visited_enter.mp hx with rfl | hx
    · rw [hself]
      exact Nat.lt_succ_self _
    · rw [hnum x hx]
      exact Nat.lt_succ_of_lt (h.num_lt x hx)
  · intro x hx
    rcases visited_enter.mp hx with rfl | hx
    · exact hmem
    · exact h.visited_mem x hx
  · refine pairwise_cons.mpr ⟨?_, ?_⟩
    · intro y hy
      rw [hself, hnum y (h.stack_visited y hy)]
      exact h.num_lt y (h.stack_visited y hy)
    · refine h.sorted.imp_of_mem ?_
      intro x y hx hy hxy
      rw [hnum x (h.stack_visited x hx), hnum y (h.stack_visited y hy)]
      exact hxy
  · exact forall_mem_cons.mpr ⟨visited_enter.mpr (.inl rfl),
      fun x hx => visited_enter.mpr (.inr (h.stack_visited x hx))⟩
  · exact forall_mem_cons.mpr
      ⟨mem_cons_self, fun x hx => mem_cons_of_mem _ (h.gray_stack x hx)⟩
  · intro x hx
    exact visited_enter.mpr (.inr (h.done_visited x hx))
  · intro x hx
    rcases visited_enter.mp hx with rfl | hx
    · exact .inl mem_cons_self
    · rcases h.visited_cases x hx with hx | hx
      · exact .inl (mem_cons_of_mem _ hx)
      · exact .inr hx
  · show (s.done ++ v :: s.stack).Nodup
    rw [perm_middle.nodup_iff]
    refine nodup_cons.mpr ⟨?_, h.nodup⟩
    intro hx
    exact hv ((mem_append.mp hx).elim (h.done_visited v) (h.stack_visited v))
  · intro x hx hnot y hy
    rcases visited_enter.mp hx with rfl | hx
    · exact absurd mem_cons_self hnot
    · exact visited_enter.mpr (.inr (h.black_closed x hx
        (fun hgray => hnot (mem_cons_of_mem _ hgray)) y hy))
  · intro x hx y hy hle
    rcases mem_cons.mp hy with rfl | hy
    · rcases mem_cons.mp hx with rfl | hx
      · exact .refl
      · -- a node on the stack reaches a gray node, and that reaches the new one
        obtain ⟨g, hg, -, hxg⟩ := h.reaches_gray x hx
        exact hxg.trans (hgray g hg)
    · have hyv := h.stack_visited y hy
      have hlt := h.num_lt y hyv
      rcases mem_cons.mp hx with rfl | hx
      · rw [hnum y hyv] at hle
        omega
      · rw [hnum x (h.stack_visited x hx), hnum y hyv] at hle
        exact h.older_reaches x hx y hy hle
  · intro x hx
    rcases mem_cons.mp hx with rfl | hx
    · exact ⟨x, mem_cons_self, Nat.le_refl _, .refl⟩
    · obtain ⟨g, hg, hle, hxg⟩ := h.reaches_gray x hx
      refine ⟨g, mem_cons_of_mem _ hg, ?_, hxg⟩
      rw [hnum g (h.stack_visited g (h.gray_stack g hg)), hnum x (h.stack_visited x hx)]
      exact hle

end Enter

/-! ### The loop over the references -/

/-- What a call for the node `v` does to the state `s`. -/
structure Post (out : ν → List ν) (nodes gray : List ν) (s : Tarjan ν) (v : ν)
    (s' : Tarjan ν) : Prop where
  inv : Inv out nodes gray s'
  ext : Extends s s'
  low_eq : ∀ x, s.Visited x → s'.lowlink x = s.lowlink x
  visited : s'.Visited v
  low : s.index ≤ s'.lowlink v ∨ ∃ y ∈ s.stack, s.num y = s'.lowlink v ∧ Reaches out v y
  crossing : ∀ x ∈ s'.stack, ¬ s.Visited x → ∀ y ∈ out x, y ∈ s.stack → s'.lowlink v ≤ s.num y

/-- The state in the loop of the call for `v`, when the references `refs` are done. -/
structure Loop (out : ν → List ν) (nodes gray : List ν) (s : Tarjan ν) (v : ν)
    (refs : List ν) (t : Tarjan ν) : Prop where
  inv : Inv out nodes (v :: gray) t
  ext : Extends (s.enter v) t
  low_eq : ∀ x, s.Visited x → t.lowlink x = s.lowlink x
  low_le : t.lowlink v ≤ t.num v
  low_reach : ∃ y ∈ t.stack, t.num y = t.lowlink v ∧ Reaches out v y
  crossing : ∀ x ∈ t.stack, t.num v < t.num x → ∀ y ∈ out x, y ∈ t.stack →
    t.lowlink v ≤ t.num y
  edges : ∀ y ∈ refs, t.Visited y ∧ (y ∈ t.stack → t.lowlink v ≤ t.num y)

theorem Inv.lower {gray : List ν} {t : Tarjan ν} (h : Inv out nodes gray t) (v : ν) (n : Nat) :
    Inv out nodes gray (t.lower v n) :=
  { h with num_lt := h.num_lt }

theorem Extends.lower {s t : Tarjan ν} (h : Extends s t) (v : ν) (n : Nat) :
    Extends s (t.lower v n) :=
  ⟨h.indexOf_eq, h.new_num, h.index_le, h.stack_eq⟩

theorem lowlink_lower_self (t : Tarjan ν) (v : ν) (n : Nat) :
    (t.lower v n).lowlink v = min (t.lowlink v) n :=
  update_self ..

variable {x : ν}

theorem lowlink_lower_of_ne (t : Tarjan ν) {v : ν} (n : Nat) (hx : x ≠ v) :
    (t.lower v n).lowlink x = t.lowlink x :=
  update_of_ne hx ..

section LoopSteps

variable {gray : List ν} {s : Tarjan ν} {v : ν}

/-- The loop starts when the node is entered. -/
theorem loop_enter (h : Inv out nodes gray s) (hv : ¬ s.Visited v) (hmem : v ∈ nodes)
    (hgray : ∀ g ∈ gray, Reaches out g v) : Loop out nodes gray s v [] (s.enter v) := by
  have hlow : (s.enter v).lowlink v = s.index := update_self ..
  have hself := num_enter_self s v
  refine ⟨h.enter hv hmem hgray, Extends.refl _, ?_, ?_, ?_, ?_, nofun⟩
  · intro x hx
    exact update_of_ne (ne_of_visited hv hx) ..
  · rw [hlow, hself]
  · exact ⟨v, mem_cons_self, hself.trans hlow.symm, .refl⟩
  · intro x hx hlt
    rcases mem_cons.mp hx with rfl | hx
    · omega
    · have hvisited := h.stack_visited x hx
      have hnum := (extends_enter hv).num_eq hvisited
      have hlt' := h.num_lt x hvisited
      omega

namespace Loop

variable {refs : List ν} {t : Tarjan ν} (h : Loop out nodes gray s v refs t)
  (hs : Inv out nodes gray s) (hv : ¬ s.Visited v)
include h

theorem visited_self : t.Visited v :=
  h.ext.visited (visited_enter.mpr (.inl rfl))

theorem mem_stack_self : v ∈ t.stack :=
  h.ext.mem_stack mem_cons_self

theorem num_self : t.num v = s.index := by
  rw [h.ext.num_eq (visited_enter.mpr (.inl rfl)), num_enter_self]

include hs hv

/-- The gray nodes of the outer calls are older. -/
theorem gray_lt {g : ν} (hg : g ∈ gray) : t.num g < t.num v := by
  have hvisited := hs.stack_visited g (hs.gray_stack g hg)
  rw [h.num_self, h.ext.num_eq (visited_enter.mpr (.inr hvisited)),
    (extends_enter hv).num_eq hvisited]
  exact hs.num_lt g hvisited

/-- A node above `v` is not gray. -/
theorem not_gray (hx : t.num v < t.num x) : x ∉ v :: gray := by
  intro hmem
  rcases mem_cons.mp hmem with rfl | hmem
  · omega
  · have hlt := h.gray_lt hs hv hmem
    omega

variable {w : ν}

/-- All gray nodes reach what `v` refers to. -/
theorem gray_reaches (hw : w ∈ out v) : ∀ g ∈ v :: gray, Reaches out g w := by
  intro g hg
  rcases mem_cons.mp hg with rfl | hg
  · exact .single hw
  · have hstack := h.inv.gray_stack g (mem_cons_of_mem _ hg)
    have hlt := h.gray_lt hs hv hg
    exact (h.inv.older_reaches g hstack v h.mem_stack_self (by omega)).tail hw

omit hs

/-- A reference to a node without an index, after the call for it. -/
theorem call (hw : w ∈ out v) (hnew : ¬ t.Visited w) {t' : Tarjan ν}
    (hpost : Post out nodes (v :: gray) t w t') :
    Loop out nodes gray s v (refs ++ [w]) (t'.lower v (t'.lowlink w)) := by
  have hvt := h.visited_self
  have hlowv : t'.lowlink v = t.lowlink v := hpost.low_eq v hvt
  have hlow : (t'.lower v (t'.lowlink w)).lowlink v = min (t.lowlink v) (t'.lowlink w) := by
    rw [lowlink_lower_self, hlowv]
  have hnumv : t'.num v = t.num v := hpost.ext.num_eq hvt
  have hlt := h.inv.num_lt v hvt
  have hle := h.low_le
  refine ⟨hpost.inv.lower v _, (h.ext.trans hpost.ext).lower v _, ?_, ?_, ?_, ?_, ?_⟩
  · intro x hx
    rw [lowlink_lower_of_ne _ _ (ne_of_visited hv hx), hpost.low_eq x, h.low_eq x hx]
    exact h.ext.visited (visited_enter.mpr (.inr hx))
  · rw [hlow]
    show _ ≤ t'.num v
    rw [hnumv]
    exact Nat.le_trans (Nat.min_le_left _ _) hle
  · rw [hlow]
    show ∃ y ∈ t'.stack, t'.num y = _ ∧ _
    -- the node whose index is the `lowlink` of `v` so far
    have hold : ∃ y ∈ t'.stack, t'.num y = t.lowlink v ∧ Reaches out v y := by
      obtain ⟨y, hy, hnum, hreach⟩ := h.low_reach
      exact ⟨y, hpost.ext.mem_stack hy,
        (hpost.ext.num_eq (h.inv.stack_visited y hy)).trans hnum, hreach⟩
    rcases hpost.low with hbig | ⟨y, hy, hnum, hreach⟩
    · rw [Nat.min_eq_left (by omega)]
      exact hold
    · rcases Nat.le_total (t.lowlink v) (t'.lowlink w) with hmin | hmin
      · rw [Nat.min_eq_left hmin]
        exact hold
      · rw [Nat.min_eq_right hmin]
        exact ⟨y, hpost.ext.mem_stack hy,
          (hpost.ext.num_eq (h.inv.stack_visited y hy)).trans hnum, hreach.head hw⟩
  · intro x hx hltx y hy hystack
    show _ ≤ t'.num y
    have hltx' : t.num v < t'.num x := hnumv ▸ hltx
    by_cases hyt : t.Visited y
    · have hyold := hpost.ext.mem_stack_of_visited hystack hyt
      rw [hpost.ext.num_eq hyt]
      by_cases hxt : t.Visited x
      · rw [hpost.ext.num_eq hxt] at hltx'
        have hcross := h.crossing x (hpost.ext.mem_stack_of_visited hx hxt) hltx' y hy hyold
        omega
      · have hcross := hpost.crossing x hx hxt y hy hyold
        omega
    · have hbig := hpost.ext.new_num y hyt (hpost.inv.stack_visited y hystack)
      omega
  · intro y hy
    show t'.Visited y ∧ (y ∈ t'.stack → _ ≤ t'.num y)
    rcases mem_append.mp hy with hy | hy
    · obtain ⟨hyt, hylow⟩ := h.edges y hy
      refine ⟨hpost.ext.visited hyt, ?_⟩
      intro hystack
      have hcross := hylow (hpost.ext.mem_stack_of_visited hystack hyt)
      rw [hpost.ext.num_eq hyt]
      omega
    · rw [mem_singleton.mp hy]
      refine ⟨hpost.visited, ?_⟩
      have hbig := hpost.ext.new_num w hnew hpost.visited
      omega

/-- A reference to a node on the stack. -/
theorem back (hw : w ∈ out v) (hstack : w ∈ t.stack) :
    Loop out nodes gray s v (refs ++ [w]) (t.lower v (t.num w)) := by
  have hlow := lowlink_lower_self t v (t.num w)
  have hle := h.low_le
  refine ⟨h.inv.lower v _, h.ext.lower v _, ?_, ?_, ?_, ?_, ?_⟩
  · intro x hx
    rw [lowlink_lower_of_ne _ _ (ne_of_visited hv hx), h.low_eq x hx]
  · rw [hlow]
    exact Nat.le_trans (Nat.min_le_left _ _) hle
  · rw [hlow]
    rcases Nat.le_total (t.lowlink v) (t.num w) with hmin | hmin
    · rw [Nat.min_eq_left hmin]
      exact h.low_reach
    · rw [Nat.min_eq_right hmin]
      exact ⟨w, hstack, rfl, .single hw⟩
  · intro x hx hltx y hy hystack
    rw [hlow]
    exact Nat.le_trans (Nat.min_le_left _ _) (h.crossing x hx hltx y hy hystack)
  · intro y hy
    rw [hlow]
    rcases mem_append.mp hy with hy | hy
    · obtain ⟨hyt, hylow⟩ := h.edges y hy
      exact ⟨hyt, fun hystack => Nat.le_trans (Nat.min_le_left _ _) (hylow hystack)⟩
    · rw [mem_singleton.mp hy]
      exact ⟨h.inv.stack_visited w hstack, fun _ => Nat.min_le_right _ _⟩

omit hv

/-- A reference to a node that has left the stack. -/
theorem skip (hw : t.Visited w) (hstack : w ∉ t.stack) :
    Loop out nodes gray s v (refs ++ [w]) t := by
  refine { h with edges := forall_mem_append.mpr ⟨h.edges, forall_mem_singleton.mpr ?_⟩ }
  exact ⟨hw, fun hmem => absurd hmem hstack⟩

omit h in
theorem popUntil_append {above rest : List ν} (hv : v ∉ above) :
    popUntil v (above ++ v :: rest) = (above ++ [v], rest) := by
  induction above with
  | nil =>
    show (if v = v then _ else _) = _
    rw [if_pos rfl]
    rfl
  | cons w above ih =>
    have hne : w ≠ v := by
      rintro rfl
      exact hv mem_cons_self
    have hrest := ih fun hmem => hv (mem_cons_of_mem _ hmem)
    simp only [cons_append, popUntil, if_neg hne, hrest]

/-- The stack from the top: the nodes from `v` upwards, then the stack before the call. -/
theorem stack_split : ∃ piece, t.stack = piece ++ s.stack ∧ v ∈ piece ∧
    (∀ x ∈ piece, x = v ∨ t.num v < t.num x) ∧ popUntil v t.stack = (piece, s.stack) := by
  obtain ⟨above, hstack, hnew⟩ := h.ext.stack_eq
  have hsorted := h.inv.sorted
  rw [hstack] at hsorted
  have hlt : ∀ x ∈ above, t.num v < t.num x := fun x hx =>
    (pairwise_append.mp hsorted).2.2 x hx v mem_cons_self
  refine ⟨above ++ [v], ?_, by simp, ?_, ?_⟩
  · rw [hstack]
    exact append_cons ..
  · exact forall_mem_append.mpr
      ⟨fun x hx => .inr (hlt x hx), forall_mem_singleton.mpr (.inl rfl)⟩
  · rw [hstack]
    exact popUntil_append fun hmem => Nat.lt_irrefl _ (hlt v hmem)

/-- The old part of the stack is older than `v`. -/
theorem old_lt (hx : x ∈ s.stack) : t.num x < t.num v := by
  obtain ⟨piece, hstack, hv, -⟩ := h.stack_split
  have hsorted := h.inv.sorted
  rw [hstack] at hsorted
  exact (pairwise_append.mp hsorted).2.2 v hv x hx

end Loop

/-! ### A node is left -/

namespace Loop

variable {t : Tarjan ν} (h : Loop out nodes gray s v (out v) t) (hs : Inv out nodes gray s)
  (hv : ¬ s.Visited v)
include h

/-- When all references of `v` are done, only the nodes of the outer calls are gray. -/
theorem black_closed : ∀ x, t.Visited x → x ∉ gray → ∀ y ∈ out x, t.Visited y := by
  intro x hx hgray y hy
  by_cases hxv : x = v
  · rw [hxv] at hy
    exact (h.edges y hy).1
  · refine h.inv.black_closed x hx ?_ y hy
    intro hmem
    rcases mem_cons.mp hmem with hmem | hmem
    · exact hxv hmem
    · exact hgray hmem

include hs hv

variable {y : ν}

/-- An edge from `v` or from above it leads to a node with an index, and on the stack no
further down than the `lowlink`. -/
theorem edge (hx : x ∈ t.stack) (hxv : x = v ∨ t.num v < t.num x) (hy : y ∈ out x) :
    t.Visited y ∧ (y ∈ t.stack → t.lowlink v ≤ t.num y) := by
  rcases hxv with rfl | hlt
  · exact h.edges y hy
  · exact ⟨h.inv.black_closed x (h.inv.stack_visited x hx) (h.not_gray hs hv hlt) y hy,
      h.crossing x hx hlt y hy⟩

section Root

variable (hroot : t.lowlink v = t.num v) {piece : List ν} (hstack : t.stack = piece ++ s.stack)
  (hpiece : ∀ x ∈ piece, x = v ∨ t.num v < t.num x)
include hroot hstack hpiece

/-- No edge leads from the nodes above the root `v` further down the stack. -/
theorem edge_root (hx : x ∈ piece) (hy : y ∈ out x) : y ∈ piece ∨ y ∈ t.done := by
  have hxstack : x ∈ t.stack := hstack ▸ mem_append_left _ hx
  obtain ⟨hyvisited, hylow⟩ := h.edge hs hv hxstack (hpiece x hx) hy
  rcases h.inv.visited_cases y hyvisited with hystack | hydone
  · have hle := hylow hystack
    rw [hstack] at hystack
    rcases mem_append.mp hystack with hmem | hmem
    · exact .inl hmem
    · have hlt := h.old_lt hmem
      omega
  · exact .inr hydone

/-- The nodes from the top of the stack to `v` are a component, if `v` is its root. -/
theorem mem_piece_iff (hmem : v ∈ piece) : y ∈ piece ↔ Mutual out v y := by
  constructor
  · intro hy
    have hystack : y ∈ t.stack := hstack ▸ mem_append_left _ hy
    have hle : t.num v ≤ t.num y := by
      rcases hpiece y hy with rfl | hlt
      · exact Nat.le_refl _
      · exact Nat.le_of_lt hlt
    refine ⟨h.inv.older_reaches v h.mem_stack_self y hystack hle, ?_⟩
    -- back to `v` over a gray node, which is `v` or older
    obtain ⟨g, hg, -, hyg⟩ := h.inv.reaches_gray y hystack
    rcases mem_cons.mp hg with rfl | hg
    · exact hyg
    · have hlt := h.gray_lt hs hv hg
      exact hyg.trans (h.inv.older_reaches g
        (h.inv.gray_stack g (mem_cons_of_mem _ hg)) v h.mem_stack_self (by omega))
  · intro hmutual
    by_contra hnot
    -- the edge with which a path from `v` to `y` leaves the piece
    obtain ⟨a, b, ha, hb, hedge, -, hby⟩ := hmutual.1.exists_leaving hmem hnot
    rcases h.edge_root hs hv hroot hstack hpiece ha hedge with hbpiece | hbdone
    · exact hb hbpiece
    · -- what has left the stack does not come back to `v`
      have hvdone : v ∈ t.done :=
        Reaches.mem_of_closed h.inv.done_closed (hby.trans hmutual.2) hbdone
      exact (nodup_append.mp h.inv.nodup).2.2 v hvdone v h.mem_stack_self rfl

end Root

/-- The end of a call for the root of a component. -/
theorem leave_root (hroot : t.lowlink v = t.num v) : Post out nodes gray s v (t.leave v) := by
  obtain ⟨piece, hstack, hmem, hpiece, hpop⟩ := h.stack_split
  have hindex : t.indexOf v = some (t.lowlink v) := by
    have hvisited := h.visited_self
    rw [hroot]
    unfold num
    cases hi : t.indexOf v with
    | none => exact absurd hi hvisited
    | some n => rfl
  have hleave : t.leave v =
      { t with stack := s.stack, components := t.components ++ [piece] } := by
    unfold leave
    rw [if_pos hindex, hpop]
  have hsv : Extends s t := (extends_enter hv).trans h.ext
  have hdone : done { t with stack := s.stack, components := t.components ++ [piece] }
      = t.done ++ piece := by
    unfold done
    simp
  have hmutual := fun y => h.mem_piece_iff hs hv hroot hstack hpiece hmem (y := y)
  have hmemstack : ∀ {x : ν}, x ∈ piece → x ∈ t.stack :=
    fun hx => hstack ▸ mem_append_left _ hx
  have hnum : ∀ x ∈ s.stack, t.num x = s.num x := fun x hx => hsv.num_eq (hs.stack_visited x hx)
  rw [hleave]
  refine ⟨⟨h.inv.num_lt, h.inv.visited_mem, ?_, ?_, hs.gray_stack, ?_, ?_, ?_, ?_, ?_, ?_,
    h.black_closed, ?_, ?_⟩, ⟨hsv.indexOf_eq, hsv.new_num, hsv.index_le, [], rfl, nofun⟩,
    h.low_eq, h.visited_self, .inl ?_, ?_⟩
  · have hsorted := h.inv.sorted
    rw [hstack] at hsorted
    exact (pairwise_append.mp hsorted).2.1
  · intro x hx
    exact hsv.visited (hs.stack_visited x hx)
  · intro x hx
    rw [hdone] at hx
    rcases mem_append.mp hx with hx | hx
    · exact h.inv.done_visited x hx
    · exact h.inv.stack_visited x (hmemstack hx)
  · intro x hx
    rw [hdone]
    rcases h.inv.visited_cases x hx with hx | hx
    · rw [hstack] at hx
      rcases mem_append.mp hx with hx | hx
      · exact .inr (mem_append_right _ hx)
      · exact .inl hx
    · exact .inr (mem_append_left _ hx)
  · rw [hdone]
    have hnodup := h.inv.nodup
    rw [hstack] at hnodup
    simpa using hnodup
  · refine forall_mem_append.mpr ⟨h.inv.component, forall_mem_singleton.mpr ?_⟩
    refine ⟨ne_nil_of_mem hmem, ?_⟩
    intro x hx y
    have hvx := (hmutual x).mp hx
    rw [hmutual y]
    exact ⟨fun hvy => hvx.symm.trans hvy, fun hxy => hvx.trans hxy⟩
  · refine pairwise_append.mpr ⟨h.inv.ordered, pairwise_singleton _ _, ?_⟩
    intro c hc d hd x hx y hy hreach
    rw [mem_singleton.mp hd] at hy
    -- what has left the stack before reaches nothing that is still on it
    have hydone : y ∈ t.done :=
      Reaches.mem_of_closed h.inv.done_closed hreach (mem_flatten_of_mem hc hx)
    exact (nodup_append.mp h.inv.nodup).2.2 y hydone y (hmemstack hy) rfl
  · intro x hx y hy
    rw [hdone] at hx ⊢
    rcases mem_append.mp hx with hx | hx
    · exact mem_append_left _ (h.inv.done_closed x hx y hy)
    · rcases h.edge_root hs hv hroot hstack hpiece hx hy with hy | hy
      · exact mem_append_right _ hy
      · exact mem_append_left _ hy
  · intro x hx y hy hle
    show Reaches out x y
    refine hs.older_reaches x hx y hy ?_
    rw [← hnum x hx, ← hnum y hy]
    exact hle
  · intro x hx
    obtain ⟨g, hg, hle, hreach⟩ := hs.reaches_gray x hx
    refine ⟨g, hg, ?_, hreach⟩
    show t.num g ≤ t.num x
    rw [hnum g (hs.gray_stack g hg), hnum x hx]
    exact hle
  · show s.index ≤ t.lowlink v
    rw [hroot, h.num_self]
  · intro x hx hnotv
    exact absurd (hs.stack_visited x hx) hnotv

/-- The end of a call for a node that is not the root of a component. -/
theorem leave_inner (hroot : t.lowlink v ≠ t.num v) : Post out nodes gray s v (t.leave v) := by
  have hlt : t.lowlink v < t.num v := Nat.lt_of_le_of_ne h.low_le hroot
  have hindex : t.indexOf v ≠ some (t.lowlink v) := by
    intro hi
    apply hroot
    unfold num
    rw [hi]
    rfl
  have hleave : t.leave v = t := by
    unfold leave
    rw [if_neg hindex]
  have hsv : Extends s t := (extends_enter hv).trans h.ext
  obtain ⟨piece, hstack, -, hpiece, -⟩ := h.stack_split
  -- the node whose index is the `lowlink` of `v` is older than `v`
  obtain ⟨z, hz, hznum, hvz⟩ := h.low_reach
  have hzold : z ∈ s.stack := by
    rw [hstack] at hz
    rcases mem_append.mp hz with hz | hz
    · rcases hpiece z hz with rfl | hbig
      · omega
      · omega
    · exact hz
  rw [hleave]
  refine ⟨{ h.inv with gray_stack := ?_, black_closed := h.black_closed, reaches_gray := ?_ },
    hsv, h.low_eq, h.visited_self, .inr ⟨z, hzold, ?_, hvz⟩, ?_⟩
  · intro g hg
    exact h.inv.gray_stack g (mem_cons_of_mem _ hg)
  · intro x hx
    obtain ⟨g, hg, hle, hxg⟩ := h.inv.reaches_gray x hx
    rcases mem_cons.mp hg with rfl | hg
    · -- over `v` and `z` to a gray node that is older than `v`
      obtain ⟨g', hg', hle', hzg⟩ := h.inv.reaches_gray z hz
      rcases mem_cons.mp hg' with rfl | hg'
      · omega
      · exact ⟨g', hg', by omega, hxg.trans (hvz.trans hzg)⟩
    · exact ⟨g, hg, hle, hxg⟩
  · rw [← hznum, hsv.num_eq (hs.stack_visited z hzold)]
  · intro x hx hnew y hy hystack
    rw [← hsv.num_eq (hs.stack_visited y hystack)]
    have hxv : x = v ∨ t.num v < t.num x := by
      rw [hstack] at hx
      rcases mem_append.mp hx with hx | hx
      · exact hpiece x hx
      · exact absurd (hs.stack_visited x hx) hnew
    exact (h.edge hs hv hx hxv hy).2 (hsv.mem_stack hystack)

end Loop

end LoopSteps

/-! ### The calls -/

/-- The number of nodes without an index. -/
def unvisited (nodes : List ν) (s : Tarjan ν) : Nat := nodes.countP fun x => s.indexOf x = none

variable {s : Tarjan ν}

theorem unvisited_enter (hnodes : nodes.Nodup) {v : ν} (hv : ¬ s.Visited v) (hmem : v ∈ nodes) :
    unvisited nodes (s.enter v) + 1 = unvisited nodes s := by
  apply countP_add_one hnodes hmem
  · exact decide_eq_true (not_not.mp hv)
  · apply decide_eq_false
    rw [indexOf_enter, if_pos rfl]
    nofun
  · intro x _ hne
    rw [indexOf_enter, if_neg hne]

omit [DecidableEq ν] in
theorem Extends.unvisited_le {s' : Tarjan ν} (h : Extends s s') (nodes : List ν) :
    unvisited nodes s' ≤ unvisited nodes s := by
  apply countP_mono_left
  intro x _ hx
  apply decide_eq_true
  by_contra hvisited
  exact h.visited hvisited (of_decide_eq_true hx)

/-- A call with enough depth for the nodes without an index returns, and does what it
should. -/
theorem tarjan_spec (hnodes : nodes.Nodup) (hout : ∀ a ∈ nodes, ∀ b ∈ out a, b ∈ nodes) {fuel : Nat}
    {gray : List ν} {v : ν} (hs : Inv out nodes gray s) (hv : ¬ s.Visited v) (hmem : v ∈ nodes)
    (hgray : ∀ g ∈ gray, Reaches out g v) (hfuel : unvisited nodes s ≤ fuel) :
    ∃ s', tarjan out fuel s v = some s' ∧ Post out nodes gray s v s' := by
  induction fuel generalizing gray s v with
  | zero =>
    have hcount := unvisited_enter hnodes hv hmem
    omega
  | succ fuel ih =>
    have hcount := unvisited_enter hnodes hv hmem
    -- the loop, from any reference on
    have hloop : ∀ (rest refs : List ν) (t : Tarjan ν), out v = refs ++ rest →
        Loop out nodes gray s v refs t → ∃ t', rest.foldlM (fun s w =>
          if s.indexOf w = none then do
            let s ← tarjan out fuel s w
            return s.lower v (s.lowlink w)
          else if w ∈ s.stack then some (s.lower v ((s.indexOf w).getD 0))
          else some s) t = some t' ∧ Loop out nodes gray s v (out v) t' := by
      intro rest
      induction rest with
      | nil =>
        intro refs t hrefs ht
        rw [append_nil] at hrefs
        exact ⟨t, rfl, hrefs ▸ ht⟩
      | cons w rest ihr =>
        intro refs t hrefs ht
        have hw : w ∈ out v := by
          rw [hrefs]
          exact mem_append_right _ mem_cons_self
        have hrefs' : out v = (refs ++ [w]) ++ rest := by simp [hrefs]
        rw [foldlM_cons]
        by_cases hnew : t.indexOf w = none
        · have hle := ht.ext.unvisited_le nodes
          obtain ⟨t', hrun, hpost⟩ := ih ht.inv (not_not.mpr hnew) (hout v hmem w hw)
            (ht.gray_reaches hs hv hw) (by omega)
          rw [if_pos hnew, hrun]
          exact ihr _ _ hrefs' (ht.call hv hw (not_not.mpr hnew) hpost)
        · rw [if_neg hnew]
          by_cases hstack : w ∈ t.stack
          · rw [if_pos hstack]
            exact ihr _ _ hrefs' (ht.back hv hw hstack)
          · rw [if_neg hstack]
            exact ihr _ _ hrefs' (ht.skip hnew hstack)
    obtain ⟨t, hrun, ht⟩ := hloop (out v) [] (s.enter v) rfl (loop_enter hs hv hmem hgray)
    refine ⟨t.leave v, ?_, ?_⟩
    · unfold tarjan
      rw [if_neg (show ¬ s.indexOf v ≠ none from hv), hrun]
      rfl
    · by_cases hroot : t.lowlink v = t.num v
      · exact ht.leave_root hs hv hroot
      · exact ht.leave_inner hs hv hroot

omit [DecidableEq ν] in
/-- The state before the first call. It does not matter what the `lowlink` fields hold. -/
theorem inv_start (low : ν → Nat) : Inv out nodes [] { start with lowlink := low } where
  num_lt := fun _ hx => absurd rfl hx
  visited_mem := fun _ hx => absurd rfl hx
  sorted := List.Pairwise.nil
  stack_visited := nofun
  gray_stack := nofun
  done_visited := nofun
  visited_cases := fun _ hx => absurd rfl hx
  nodup := nodup_nil
  component := nofun
  ordered := List.Pairwise.nil
  done_closed := nofun
  black_closed := fun _ hx => absurd rfl hx
  older_reaches := nofun
  reaches_gray := nofun

/-- The second loop of `Execute` returns the strongly connected components of the nodes that
the graph reaches. -/
theorem execute_loop {graph : List ν} (hnodup : nodes.Nodup)
    (hnodes : ∀ x, x ∈ nodes ↔ ∃ r ∈ graph, Reaches out r x) {bound : Nat}
    (hbound : nodes.length ≤ bound) (low : ν → Nat) :
    ∃ s, graph.foldlM (fun s v => if s.indexOf v = none then tarjan out bound s v else some s)
        { start with lowlink := low } = some s ∧ SccList out graph s.components := by
  have hout : ∀ a ∈ nodes, ∀ b ∈ out a, b ∈ nodes := by
    intro a ha b hb
    obtain ⟨r, hr, hreach⟩ := (hnodes a).mp ha
    exact (hnodes b).mpr ⟨r, hr, hreach.tail hb⟩
  have hloop : ∀ (l : List ν), (∀ v ∈ l, v ∈ nodes) → ∀ s : Tarjan ν, Inv out nodes [] s →
      ∃ s', l.foldlM (fun s v => if s.indexOf v = none then tarjan out bound s v else some s) s
        = some s' ∧ Inv out nodes [] s' ∧ Extends s s' ∧ ∀ v ∈ l, s'.Visited v := by
    intro l
    induction l with
    | nil => exact fun _ s hs => ⟨s, rfl, hs, Extends.refl s, nofun⟩
    | cons v rest ih =>
      intro hl s hs
      rw [foldlM_cons]
      have hrest : ∀ w ∈ rest, w ∈ nodes := fun w hw => hl w (mem_cons_of_mem _ hw)
      obtain ⟨s₁, hrun, hs₁, hext₁, hv₁⟩ : ∃ s₁,
          (if s.indexOf v = none then tarjan out bound s v else some s) = some s₁ ∧
            Inv out nodes [] s₁ ∧ Extends s s₁ ∧ s₁.Visited v := by
        by_cases hnew : s.indexOf v = none
        · have hle : unvisited nodes s ≤ nodes.length := countP_le_length
          obtain ⟨s₁, hrun, hpost⟩ := tarjan_spec hnodup hout hs (not_not.mpr hnew)
            (hl v mem_cons_self) nofun (Nat.le_trans hle hbound)
          rw [if_pos hnew]
          exact ⟨s₁, hrun, hpost.inv, hpost.ext, hpost.visited⟩
        · rw [if_neg hnew]
          exact ⟨s, rfl, hs, Extends.refl s, hnew⟩
      obtain ⟨s₂, hrun₂, hs₂, hext₂, hvisited⟩ := ih hrest s₁ hs₁
      refine ⟨s₂, ?_, hs₂, hext₁.trans hext₂, ?_⟩
      · rw [hrun]
        exact hrun₂
      · exact forall_mem_cons.mpr ⟨hext₂.visited hv₁, hvisited⟩
  obtain ⟨s, hrun, hs, -, hvisited⟩ :=
    hloop graph (fun v hv => (hnodes v).mpr ⟨v, hv, .refl⟩) _ (inv_start low)
  -- without a gray node the stack is empty
  have hempty : ∀ x, x ∉ s.stack := by
    intro x hx
    obtain ⟨g, hg, -⟩ := hs.reaches_gray x hx
    cases hg
  refine ⟨s, hrun, ?_, ?_, hs.component, hs.ordered⟩
  · exact (nodup_append.mp hs.nodup).1
  · intro x
    constructor
    · intro hx
      exact (hnodes x).mp (hs.visited_mem x (hs.done_visited x hx))
    · rintro ⟨r, hr, hreach⟩
      exact Reaches.mem_of_closed hs.done_closed hreach
        ((hs.visited_cases r (hvisited r hr)).resolve_left (hempty r))

/-- `Execute`, on a graph that lists all its nodes. -/
theorem execute_spec (hnodes : nodes.Nodup) (hout : ∀ a ∈ nodes, ∀ b ∈ out a, b ∈ nodes)
    {bound : Nat} (hbound : nodes.length ≤ bound) :
    ∃ cs, execute out bound nodes = some cs ∧ cs.flatten.Nodup ∧
      (∀ x, x ∈ cs.flatten ↔ x ∈ nodes) ∧
      ∀ c ∈ cs, c ≠ [] ∧ ∀ x ∈ c, ∀ y, y ∈ c ↔ Mutual out x y := by
  have hreached : ∀ x, x ∈ nodes ↔ ∃ r ∈ nodes, Reaches out r x := by
    intro x
    constructor
    · intro hx
      exact ⟨x, hx, .refl⟩
    · rintro ⟨r, hr, hreach⟩
      exact Reaches.mem_of_closed hout hreach hr
  obtain ⟨s, hrun, hscc⟩ := execute_loop hnodes hreached hbound fun _ => 0
  exact ⟨s.components, bind_eq_some_iff.mpr ⟨s, hrun, rfl⟩, hscc.nodup,
    fun x => (hscc.mem x).trans (hreached x).symm, hscc.component⟩

/-! ### Nodes that carry values from before -/

/-- Two states that differ only in the fields of nodes outside of `S`. -/
structure Agree (S : ν → Prop) (s t : Tarjan ν) : Prop where
  indexOf : ∀ x, S x → s.indexOf x = t.indexOf x
  lowlink : ∀ x, S x → s.lowlink x = t.lowlink x
  index : s.index = t.index
  stack : s.stack = t.stack
  components : s.components = t.components

namespace Agree

variable {S : ν → Prop} {s t t' : Tarjan ν} {v : ν}

theorem enter (h : Agree S s t) (v : ν) : Agree S (s.enter v) (t.enter v) where
  indexOf := by
    intro x hx
    rw [indexOf_enter, indexOf_enter, h.indexOf x hx, h.index]
  lowlink := by
    intro x hx
    simp [Tarjan.enter, update_apply, h.lowlink x hx, h.index]
  index := congrArg (· + 1) h.index
  stack := congrArg (v :: ·) h.stack
  components := h.components

theorem lower (h : Agree S s t) (hv : S v) {m n : Nat} (hmn : m = n) :
    Agree S (s.lower v m) (t.lower v n) where
  indexOf := h.indexOf
  lowlink := by
    intro x hx
    simp [Tarjan.lower, update_apply, h.lowlink x hx, h.lowlink v hv, hmn]
  index := h.index
  stack := h.stack
  components := h.components

theorem leave (h : Agree S s t) (hv : S v) : Agree S (s.leave v) (t.leave v) := by
  unfold Tarjan.leave
  rw [h.indexOf v hv, h.lowlink v hv, h.stack, h.components]
  split
  · exact ⟨h.indexOf, h.lowlink, h.index, rfl, rfl⟩
  · exact h

omit [DecidableEq ν] in
/-- A loop whose steps keep the agreement keeps it. -/
theorem foldlM {f g : Tarjan ν → ν → Option (Tarjan ν)} {l : List ν}
    (hstep : ∀ w ∈ l, ∀ s t t', Agree S s t → g t w = some t' →
      ∃ s', f s w = some s' ∧ Agree S s' t')
    (h : Agree S s t) (hrun : l.foldlM g t = some t') :
    ∃ s', l.foldlM f s = some s' ∧ Agree S s' t' := by
  induction l generalizing s t with
  | nil =>
    cases hrun
    exact ⟨s, rfl, h⟩
  | cons w l ih =>
    obtain ⟨t₁, hg, hrest⟩ := bind_eq_some_iff.mp hrun
    obtain ⟨s₁, hf, h₁⟩ := hstep w mem_cons_self s t t₁ h hg
    obtain ⟨s', hs', h'⟩ := ih (fun w hw => hstep w (mem_cons_of_mem _ hw)) h₁ hrest
    refine ⟨s', ?_, h'⟩
    rw [foldlM_cons, hf]
    exact hs'

/-- A call does the same in both states, if no edge leaves `S`. -/
theorem tarjan (hclosed : ∀ a, S a → ∀ b ∈ out a, S b) {fuel : Nat} (h : Agree S s t)
    (hv : S v) (hrun : tarjan out fuel t v = some t') :
    ∃ s', Tarjan.tarjan out fuel s v = some s' ∧ Agree S s' t' := by
  induction fuel generalizing s t v t' with
  | zero => cases hrun
  | succ fuel ih =>
    unfold Tarjan.tarjan at hrun ⊢
    rw [h.indexOf v hv]
    split at hrun
    · cases hrun
    · rename_i hnew
      rw [if_neg hnew]
      obtain ⟨t₁, hloop, hret⟩ := bind_eq_some_iff.mp hrun
      cases hret
      -- one reference; the states agree on it, as it is in `S`
      obtain ⟨s₁, hloop', h₁⟩ := foldlM (f := fun s w =>
        if s.indexOf w = none then do
          let s ← Tarjan.tarjan out fuel s w
          return s.lower v (s.lowlink w)
        else if w ∈ s.stack then some (s.lower v ((s.indexOf w).getD 0))
        else some s) (fun w hw s t t' h hg => by
          have hwS := hclosed v hv w hw
          rw [h.indexOf w hwS, h.stack]
          by_cases hnone : t.indexOf w = none
          · rw [if_pos hnone] at hg ⊢
            obtain ⟨t₂, hcall, hret⟩ := bind_eq_some_iff.mp hg
            cases hret
            obtain ⟨s₂, hcall', h₂⟩ := ih h hwS hcall
            rw [hcall']
            exact ⟨_, rfl, h₂.lower hv (h₂.lowlink w hwS)⟩
          · rw [if_neg hnone] at hg ⊢
            by_cases hstack : w ∈ t.stack
            · rw [if_pos hstack] at hg ⊢
              cases hg
              exact ⟨_, rfl, h.lower hv rfl⟩
            · rw [if_neg hstack] at hg ⊢
              cases hg
              exact ⟨_, rfl, h⟩) (h.enter v) hloop
      rw [hloop']
      exact ⟨_, rfl, h₁.leave hv⟩

end Agree

/-- `Execute` on any nodes: if the nodes that the graph reaches without listing them are
undefined, it returns at some depth, and its components are those of the nodes reached. -/
theorem executeOn_components {graph : List ν} (s : Tarjan ν)
    (hfinite : {x | ∃ r ∈ graph, Reaches out r x}.Finite)
    (hfresh : ∀ r ∈ graph, ∀ x, Reaches out r x → x ∉ graph → s.indexOf x = none) :
    ∃ depth, ∀ bound ≥ depth, ∃ s', executeOn out bound s graph = some s' ∧
      SccList out graph s'.components := by
  have hnodes : ∀ x, x ∈ hfinite.toFinset.toList ↔ ∃ r ∈ graph, Reaches out r x := by simp
  refine ⟨hfinite.toFinset.toList.length, fun bound hbound => ?_⟩
  obtain ⟨t, hrun, hscc⟩ :=
    execute_loop (Finset.nodup_toList _) hnodes hbound (s.reset graph).lowlink
  -- this run and one on undefined nodes agree on what the graph reaches
  have hstart : Agree (fun x => ∃ r ∈ graph, Reaches out r x) (s.reset graph)
      { start with lowlink := (s.reset graph).lowlink } := by
    refine ⟨?_, fun _ _ => rfl, rfl, rfl, rfl⟩
    rintro x ⟨r, hr, hreach⟩
    show (if x ∈ graph then none else s.indexOf x) = none
    by_cases hx : x ∈ graph
    · exact if_pos hx
    · rw [if_neg hx]
      exact hfresh r hr x hreach hx
  obtain ⟨s', hrun', hagree⟩ := hstart.foldlM (f := fun s v =>
    if s.indexOf v = none then tarjan out bound s v else some s) (fun v hv s t t' h hg => by
      have hreached : ∃ r ∈ graph, Reaches out r v := ⟨v, hv, .refl⟩
      rw [h.indexOf v hreached]
      by_cases hnone : t.indexOf v = none
      · rw [if_pos hnone] at hg ⊢
        refine h.tarjan ?_ hreached hg
        rintro a ⟨r, hr, hreach⟩ b hb
        exact ⟨r, hr, hreach.tail hb⟩
      · rw [if_neg hnone] at hg ⊢
        cases hg
        exact ⟨s, rfl, h⟩) hrun
  refine ⟨s', hrun', ?_⟩
  rw [hagree.components]
  exact hscc

/-- A graph that does not list the node it refers to, whose `index` is undefined. -/
theorem executeOn_components_unlisted :
    ∃ depth, ∀ bound ≥ depth, ∃ s,
      executeOn (fun v => if v then [] else [true]) bound start [false] = some s ∧
        SccList (fun v => if v then [] else [true]) [false] s.components :=
  executeOn_components start (Set.toFinite _) fun _ _ _ _ _ => rfl

/-- The same graph after a run on the other node: that one still has its index, and is in no
component. -/
theorem executeOn_stale : ∃ s s' : Tarjan Bool,
    executeOn (fun v => if v then [] else [true]) 2 start [true] = some s ∧
      executeOn (fun v => if v then [] else [true]) 2 s [false] = some s' ∧
      s'.components = [[false]] ∧
      Reaches (fun v : Bool => if v then [] else [true]) false true :=
  ⟨_, _, rfl, rfl, rfl, .single mem_cons_self⟩

end AndroidCore.Libmemunreachable.Tarjan
