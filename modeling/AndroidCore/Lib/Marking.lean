import AndroidCore.Lib.CountP
import Mathlib.Logic.Relation

/-!
# `AndroidCore.Lib.Marking`: a worklist that marks what the roots reach

A marker keeps a stack of nodes to scan. It takes the node on top, looks at the nodes it
refers to, and marks and pushes every one that has no mark yet. The marks live in a state
`μ` of the caller, seen through `Marks`; `Lawful` says that a mark sets one bit among the
nodes `known`.

`Inv` is the invariant. Every mark is justified by a path from a root, and every root and
every marked node is still on the stack or refers to marked nodes only. `Inv.scan` keeps it
over one scan, `Inv.walk` over the whole loop, and `Inv.marked_iff` reads off the end: the
marked nodes are the nodes that the roots reach. A scan takes one node off the stack for
good, since it pushes a node only when it marks it; this bounds the loop.
-/

namespace AndroidCore.Lib.Marking

open List

variable {μ ρ : Type}

/-- The marks of a state. -/
structure Marks (μ ρ : Type) where
  isMarked : μ → ρ → Bool
  mark : μ → ρ → μ

/-- Looks at a node: marks and pushes it if it has no mark. -/
def Marks.visit (k : Marks μ ρ) (s : μ × List ρ) (a : ρ) : μ × List ρ :=
  if k.isMarked s.1 a then s else (k.mark s.1 a, a :: s.2)

/-- Scans a node that refers to the nodes `refs`. -/
def Marks.scan (k : Marks μ ρ) (refs : List ρ) (s : μ × List ρ) : μ × List ρ :=
  refs.foldl k.visit s

/-- The loop, with a bound on its iterations. -/
def Marks.walk (k : Marks μ ρ) (refs : ρ → List ρ) : Nat → μ × List ρ → Option μ
  | 0, _ => none
  | _ + 1, (m, []) => some m
  | fuel + 1, (m, r :: todo) => k.walk refs fuel (k.scan (refs r) (m, todo))

/-- In the states of `Valid`, a mark sets the bit of one node of `known`. -/
structure Lawful (k : Marks μ ρ) (known : List ρ) (Valid : μ → Prop) : Prop where
  nodup : known.Nodup
  valid_mark : ∀ {m a}, Valid m → a ∈ known → Valid (k.mark m a)
  isMarked_mark : ∀ {m a b}, Valid m → a ∈ known → b ∈ known →
    (k.isMarked (k.mark m a) b = true ↔ b = a ∨ k.isMarked m b = true)

/-- The number of nodes without a mark. -/
def Marks.unmarked (k : Marks μ ρ) (known : List ρ) (m : μ) : Nat :=
  known.countP fun a => !k.isMarked m a

variable {k : Marks μ ρ} {known : List ρ} {Valid : μ → Prop} {m : μ} {a : ρ}

/-- A new mark leaves one node less without one. -/
theorem Lawful.unmarked_mark (hk : Lawful k known Valid) (hm : Valid m) (ha : a ∈ known)
    (hnew : k.isMarked m a = false) : k.unmarked known (k.mark m a) + 1 = k.unmarked known m := by
  apply countP_add_one hk.nodup ha
  · rw [hnew, Bool.not_false]
  · rw [(hk.isMarked_mark hm ha ha).mpr (.inl rfl), Bool.not_true]
  · intro b hb hne
    have hiff := hk.isMarked_mark hm ha hb
    rw [Bool.not_inj_iff, Bool.eq_iff_iff, hiff]
    exact ⟨fun h => h.resolve_left hne, .inr⟩

/-- What a scan does: the nodes of `refs` are marked, and the ones that were not before are
pushed, each taking one from the nodes without a mark. -/
theorem Lawful.scan (hk : Lawful k known Valid) {refs : List ρ} (hrefs : ∀ a ∈ refs, a ∈ known)
    (hm : Valid m) (todo : List ρ) :
    ∃ m' pushed, k.scan refs (m, todo) = (m', pushed ++ todo) ∧ Valid m' ∧
      (∀ b ∈ known, k.isMarked m' b = true ↔ k.isMarked m b = true ∨ b ∈ refs) ∧
      (∀ b ∈ pushed, b ∈ refs) ∧
      (∀ b ∈ refs, k.isMarked m b = false → b ∈ pushed) ∧
      pushed.length + k.unmarked known m' = k.unmarked known m := by
  induction refs generalizing m todo with
  | nil =>
    refine ⟨m, [], rfl, hm, ?_, nofun, nofun, ?_⟩
    · simp
    · rw [length_nil, Nat.zero_add]
  | cons a rest ih =>
    have ha : a ∈ known := hrefs a mem_cons_self
    have hrest : ∀ b ∈ rest, b ∈ known := fun b hb => hrefs b (mem_cons_of_mem _ hb)
    cases hmarked : k.isMarked m a with
    | true =>
      obtain ⟨m', pushed, hrun, hvalid, hmarks, hpushed, hfresh, hcount⟩ := ih hrest hm todo
      have hvisit : k.visit (m, todo) a = (m, todo) := if_pos hmarked
      refine ⟨m', pushed, ?_, hvalid, ?_, ?_, ?_, hcount⟩
      · rw [← hrun]
        show rest.foldl k.visit (k.visit (m, todo) a) = _
        rw [hvisit]
        rfl
      · intro b hb
        rw [hmarks b hb, mem_cons]
        constructor
        · rintro (h | h)
          · exact .inl h
          · exact .inr (.inr h)
        · rintro (h | rfl | h)
          · exact .inl h
          · exact .inl hmarked
          · exact .inr h
      · intro b hb
        exact mem_cons_of_mem _ (hpushed b hb)
      · intro b hb hnew
        rcases mem_cons.mp hb with rfl | hb
        · rw [hmarked] at hnew
          cases hnew
        · exact hfresh b hb hnew
    | false =>
      have hm₁ := hk.valid_mark hm ha
      obtain ⟨m', pushed, hrun, hvalid, hmarks, hpushed, hfresh, hcount⟩ :=
        ih hrest hm₁ (a :: todo)
      have hvisit : k.visit (m, todo) a = (k.mark m a, a :: todo) :=
        if_neg (by rw [hmarked]; decide)
      refine ⟨m', pushed ++ [a], ?_, hvalid, ?_, ?_, ?_, ?_⟩
      · rw [append_assoc]
        show rest.foldl k.visit (k.visit (m, todo) a) = _
        rw [hvisit]
        exact hrun
      · intro b hb
        rw [hmarks b hb, hk.isMarked_mark hm ha hb, mem_cons, or_assoc, or_left_comm]
      · exact forall_mem_append.mpr ⟨fun b h => mem_cons_of_mem _ (hpushed b h),
          forall_mem_singleton.mpr mem_cons_self⟩
      · intro b hb hnew
        by_cases hab : b = a
        · rw [hab]
          exact mem_append_right _ (mem_singleton_self _)
        · have hbrest := (mem_cons.mp hb).resolve_left hab
          refine mem_append_left _ (hfresh b hbrest ?_)
          rw [Bool.eq_false_iff]
          intro hmark
          rcases (hk.isMarked_mark hm ha (hrest b hbrest)).mp hmark with h | h
          · exact hab h
          · rw [hnew] at h
            cases h
      · have hone := hk.unmarked_mark hm ha hmarked
        rw [length_append, length_singleton]
        omega

/-- A node is reached from the roots `R` along one reference or more. -/
def Reached (refs : ρ → List ρ) (R : ρ → Prop) (a : ρ) : Prop :=
  ∃ r, R r ∧ Relation.TransGen (fun x y => y ∈ refs x) r a

/-- The invariant of the marker for the roots `R`. -/
structure Inv (k : Marks μ ρ) (refs : ρ → List ρ) (known : List ρ) (Valid : μ → Prop)
    (R : ρ → Prop) (s : μ × List ρ) : Prop where
  valid : Valid s.1
  sound : ∀ a ∈ known, k.isMarked s.1 a = true → Reached refs R a
  todo_sound : ∀ a ∈ s.2, R a ∨ Reached refs R a
  roots_closed : ∀ r, R r → r ∈ s.2 ∨ ∀ b ∈ refs r, k.isMarked s.1 b = true
  marked_closed : ∀ a ∈ known, k.isMarked s.1 a = true →
    a ∈ s.2 ∨ ∀ b ∈ refs a, k.isMarked s.1 b = true

variable {refs : ρ → List ρ} {R : ρ → Prop}

/-- A reference from a root or from a node that is reached. -/
theorem Reached.tail {b : ρ} (h : R a ∨ Reached refs R a) (hb : b ∈ refs a) : Reached refs R b := by
  rcases h with h | ⟨r, hr, hpath⟩
  · exact ⟨a, h, .single hb⟩
  · exact ⟨r, hr, hpath.tail hb⟩

section
variable (hk : Lawful k known Valid) (hrefs : ∀ r, ∀ a ∈ refs r, a ∈ known)
include hk hrefs

/-- One scan: it keeps the invariant, and what is on the stack and without a mark gets less
by one. -/
theorem Inv.scan {r : ρ} {todo : List ρ} (h : Inv k refs known Valid R (m, r :: todo)) :
    ∃ m' todo', k.scan (refs r) (m, todo) = (m', todo') ∧
      Inv k refs known Valid R (m', todo') ∧
      todo'.length + k.unmarked known m' = todo.length + k.unmarked known m := by
  obtain ⟨m', pushed, hrun, hvalid, hmarks, hpushed, hfresh, hcount⟩ :=
    hk.scan (hrefs r) h.valid todo
  have hr := h.todo_sound r mem_cons_self
  -- a mark that was there stays
  have hkeep : ∀ b ∈ known, k.isMarked m b = true → k.isMarked m' b = true :=
    fun b hb hmark => (hmarks b hb).mpr (.inl hmark)
  have hscanned : ∀ b ∈ refs r, k.isMarked m' b = true :=
    fun b hb => (hmarks b (hrefs r b hb)).mpr (.inr hb)
  -- a node that was closed or on the stack still is, unless it is the node just scanned
  have hclosed : ∀ a, (a ∈ r :: todo ∨ ∀ b ∈ refs a, k.isMarked m b = true) →
      a ∈ pushed ++ todo ∨ ∀ b ∈ refs a, k.isMarked m' b = true := by
    intro a ha
    rcases ha with hmem | hall
    · rcases mem_cons.mp hmem with rfl | hmem
      · exact .inr hscanned
      · exact .inl (mem_append_right _ hmem)
    · exact .inr fun b hb => hkeep b (hrefs a b hb) (hall b hb)
  refine ⟨m', pushed ++ todo, hrun, ⟨hvalid, ?_, ?_, ?_, ?_⟩, ?_⟩
  · intro a ha hmark
    rcases (hmarks a ha).mp hmark with hold | hnew
    · exact h.sound a ha hold
    · exact Reached.tail hr hnew
  · intro a ha
    rcases mem_append.mp ha with hnew | hold
    · exact .inr (Reached.tail hr (hpushed a hnew))
    · exact h.todo_sound a (mem_cons_of_mem _ hold)
  · intro root hroot
    exact hclosed root (h.roots_closed root hroot)
  · intro a ha hmark
    cases hold : k.isMarked m a with
    | true => exact hclosed a (h.marked_closed a ha hold)
    | false =>
      have hnew : a ∈ refs r := by
        rcases (hmarks a ha).mp hmark with h' | h'
        · rw [hold] at h'
          cases h'
        · exact h'
      exact .inl (mem_append_left _ (hfresh a hnew hold))
  · simp only [length_append] at hcount ⊢
    omega

/-- The loop: with enough iterations it ends, and with the invariant. -/
theorem Inv.walk {fuel : Nat} {s : μ × List ρ} (h : Inv k refs known Valid R s)
    (hfuel : s.2.length + k.unmarked known s.1 < fuel) :
    ∃ m, k.walk refs fuel s = some m ∧ Inv k refs known Valid R (m, []) := by
  induction fuel generalizing s with
  | zero => omega
  | succ fuel ih =>
    obtain ⟨m, todo⟩ := s
    cases todo with
    | nil => exact ⟨m, rfl, h⟩
    | cons r todo =>
      obtain ⟨m', todo', hrun, hinv, hcount⟩ := h.scan hk hrefs
      simp only [length_cons] at hfuel
      obtain ⟨m'', hwalk, hend⟩ := ih hinv (by simp only; omega)
      refine ⟨m'', ?_, hend⟩
      show k.walk refs fuel (k.scan (refs r) (m, todo)) = some m''
      rw [hrun]
      exact hwalk

end

/-- A new root on the empty stack. -/
theorem Inv.start (h : Inv k refs known Valid R (m, [])) (r : ρ) :
    Inv k refs known Valid (fun a => R a ∨ a = r) (m, [r]) where
  valid := h.valid
  sound := by
    intro a ha hmark
    obtain ⟨root, hroot, hpath⟩ := h.sound a ha hmark
    exact ⟨root, .inl hroot, hpath⟩
  todo_sound := fun a ha => .inl (.inr (mem_singleton.mp ha))
  roots_closed := by
    rintro root (hroot | rfl)
    · exact .inr ((h.roots_closed root hroot).resolve_left not_mem_nil)
    · exact .inl (mem_singleton_self _)
  marked_closed := fun a ha hmark =>
    .inr ((h.marked_closed a ha hmark).resolve_left not_mem_nil)

/-- At the end the marked nodes are the nodes that the roots reach. -/
theorem Inv.marked_iff (hrefs : ∀ r, ∀ a ∈ refs r, a ∈ known) (h : Inv k refs known Valid R (m, []))
    (ha : a ∈ known) : k.isMarked m a = true ↔ Reached refs R a := by
  refine ⟨h.sound a ha, ?_⟩
  rintro ⟨r, hr, hpath⟩
  induction hpath with
  | single hb => exact (h.roots_closed r hr).resolve_left not_mem_nil _ hb
  | @tail b c hpath hb ih =>
    -- the node in front of the last one is referred to, so it is known
    have hknown : b ∈ known := by
      cases hpath with
      | single hb' | tail _ hb' => exact hrefs _ _ hb'
    exact (h.marked_closed _ hknown (ih hknown)).resolve_left not_mem_nil _ hb

end AndroidCore.Lib.Marking
