import Mathlib.Logic.Basic

/-!
# `AndroidCore.Lib.Transitions`: runs of a system

A system takes one action after the other; `step s a` is `none` when the action `a` cannot
happen in the state `s`. A run is a list of actions, and `run` is the state it leads to.

`Always I` says of a run that all of its states satisfy `I`, and `Along P` that all of its
steps meet the condition `P`. `run_invariant` is the rule for what holds in every state of
every run, and `run_invariant_along` the one for the runs whose steps meet a condition. When a
step keeps an invariant exactly if it meets the condition, the two are the same
(`always_iff_along`).
-/

namespace AndroidCore.Lib.Transitions

variable {σ α : Type} (step : σ → α → Option σ)

/-- The state after the actions. -/
def run (s : σ) (actions : List α) : Option σ := actions.foldlM step s

@[simp] theorem run_nil (s : σ) : run step s [] = some s := rfl

theorem run_cons (s : σ) (a : α) (actions : List α) :
    run step s (a :: actions) = (step s a).bind fun s' => run step s' actions := rfl

theorem run_append (s : σ) (actions more : List α) :
    run step s (actions ++ more) = (run step s actions).bind fun s' => run step s' more :=
  List.foldlM_append

/-- Every state of the run satisfies `I`. -/
def Always (I : σ → Prop) : σ → List α → Prop
  | s, [] => I s
  | s, a :: actions => I s ∧ ∀ s', step s a = some s' → Always I s' actions

/-- Every step of the run meets the condition. -/
def Along (P : σ → α → Prop) : σ → List α → Prop
  | _, [] => True
  | s, a :: actions => ∀ s', step s a = some s' → P s a ∧ Along P s' actions

variable {step} {P : σ → α → Prop} {s : σ}

theorem along_cons {s' : σ} {a : α} (h : step s a = some s') (actions : List α) :
    Along step P s (a :: actions) ↔ P s a ∧ Along step P s' actions := by
  constructor
  · exact fun hP => hP s' h
  · intro hP t ht
    exact Option.some.inj (h.symm.trans ht) ▸ hP

instance decidableAlong {P : σ → α → Prop} [∀ s a, Decidable (P s a)] :
    ∀ (s : σ) (actions : List α), Decidable (Along step P s actions)
  | _, [] => isTrue trivial
  | s, a :: actions =>
    match h : step s a with
    | none => isTrue fun _ hs => absurd (h.symm.trans hs) (by simp)
    | some s' =>
      have : Decidable (Along step P s' actions) := decidableAlong s' actions
      decidable_of_iff (P s a ∧ Along step P s' actions) (along_cons h actions).symm

/-- The step that follows a part of the run meets the condition. -/
theorem Along.of_run {t t' : σ} {a : α} {before after : List α}
    (h : Along step P s (before ++ a :: after)) (hrun : run step s before = some t)
    (ht : step t a = some t') : P t a := by
  induction before generalizing s with
  | nil =>
    rw [run_nil, Option.some.injEq] at hrun
    subst hrun
    exact (h t' ht).1
  | cons b before ih =>
    rw [run_cons, Option.bind_eq_some_iff] at hrun
    obtain ⟨u, hfirst, hrest⟩ := hrun
    exact ih (h u hfirst).2 hrest

variable {actions : List α} {I : σ → Prop}

/-- What every step that meets the condition keeps holds after a run of such steps. -/
theorem run_invariant_along (hstep : ∀ s a s', I s → P s a → step s a = some s' → I s') {s' : σ}
    (h : I s) (hP : Along step P s actions) (hrun : run step s actions = some s') : I s' := by
  induction actions generalizing s with
  | nil =>
    rw [run_nil, Option.some.injEq] at hrun
    exact hrun ▸ h
  | cons a actions ih =>
    rw [run_cons, Option.bind_eq_some_iff] at hrun
    obtain ⟨t, hfirst, hrest⟩ := hrun
    obtain ⟨hPa, hPrest⟩ := hP t hfirst
    exact ih (hstep s a t h hPa hfirst) hPrest hrest

/-- Under an invariant that the condition keeps, one condition on the steps gives another. -/
theorem along_of_invariant {Q : σ → α → Prop}
    (hstep : ∀ s a s', I s → P s a → step s a = some s' → Q s a ∧ I s') (h : I s)
    (hP : Along step P s actions) : Along step Q s actions := by
  induction actions generalizing s with
  | nil => trivial
  | cons a actions ih =>
    intro s' hs'
    obtain ⟨hPa, hPrest⟩ := hP s' hs'
    obtain ⟨hQ, hI⟩ := hstep s a s' h hPa hs'
    exact ⟨hQ, ih hI hPrest⟩

theorem along_true (s : σ) (actions : List α) : Along step (fun _ _ => True) s actions := by
  induction actions generalizing s with
  | nil => trivial
  | cons a actions ih => exact fun s' _ => ⟨trivial, ih s'⟩

/-- What every step keeps holds after every run. -/
theorem run_invariant (hstep : ∀ s a s', I s → step s a = some s' → I s') {s' : σ} (h : I s)
    (hrun : run step s actions = some s') : I s' :=
  run_invariant_along (fun s a s' hs _ => hstep s a s' hs) h (along_true s actions) hrun

/-- `J` is kept by every step, and `I` by exactly the steps that meet the condition. -/
theorem always_iff_along {J : σ → Prop} (hJ : ∀ s a s', J s → step s a = some s' → J s')
    (hI : ∀ s a s', J s → I s → step s a = some s' → (I s' ↔ P s a)) (hJs : J s) (hIs : I s) :
    Always step I s actions ↔ Along step P s actions := by
  induction actions generalizing s with
  | nil => exact iff_of_true hIs trivial
  | cons a actions ih =>
    constructor
    · intro h s' hs'
      have hrest := h.2 s' hs'
      -- the next state is the first of the rest
      have hIs' : I s' := by
        cases actions with
        | nil => exact hrest
        | cons b actions => exact hrest.1
      exact ⟨(hI s a s' hJs hIs hs').mp hIs', (ih (hJ s a s' hJs hs') hIs').mp hrest⟩
    · intro h
      refine ⟨hIs, ?_⟩
      intro s' hs'
      obtain ⟨hP, hrest⟩ := h s' hs'
      exact (ih (hJ s a s' hJs hs') ((hI s a s' hJs hIs hs').mpr hP)).mpr hrest

end AndroidCore.Lib.Transitions
