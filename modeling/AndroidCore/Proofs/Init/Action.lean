import AndroidCore.Init.Action
import AndroidCore.Lib.CountP

/-!
# `AndroidCore.Proofs.Init.Action`: `init` executes every command once, in order

`Ready` is the invariant of the manager between two steps. `acts` are the actions that are
still to be executed: they are live, they have distinct addresses, and the index of the next
command lies inside of the first of them. `Account` says what the trace of a run has to do
with it: the events queued are those dequeued and those in the queue, and the commands of the
actions that matched the dequeued events are those executed and those still to come.

`run_account` is the main result. No run reaches a dangling pointer or an index out of range,
every run keeps the account, and a call of `ExecuteOneCommand` executes the next command if
there is one: of the actions still to be executed, or of the first queued event that matches an
action (`upcoming`).
-/

namespace AndroidCore.Init

open Lib List Init.Action

namespace ActionManager

/-! ### What requests do -/

/-- A manager with more events and more actions. -/
def extend (m : ActionManager) (events : List Event) (new : List Action) : ActionManager :=
  { m with eventQueue := m.eventQueue ++ events, actions := m.actions ++ new }

/-- The address of the action that a request makes. -/
def newAddress : Request → Option Nat
  | .queueBuiltinAction address _ _ => some address
  | .endSection action => some action.address
  | _ => none

/-- The allocator returns no address that is in use. -/
def Fresh (m : ActionManager) (r : Request) : Prop :=
  ∀ address, newAddress r = some address → ∀ a ∈ m.actions, a.address ≠ address

/-- The requests of a command, each on the manager that the ones before have left. -/
def FreshAll : ActionManager → List Request → Prop
  | _, [] => True
  | m, r :: rs => m.Fresh r ∧ FreshAll (m.request r) rs

/-- Actions that can be looked up by their addresses, and that have a command. -/
structure Wellformed (actions : List Action) : Prop where
  nodup : (actions.map Action.address).Nodup
  commands : ∀ a ∈ actions, a.commands ≠ []

variable {a : Action}

theorem initTriggersFrom_address {i : Nat} {a' : Action} {args : List Str}
    (h : initTriggersFrom i a args = .ok a') : a'.address = a.address := by
  induction args generalizing i a with
  | nil => cases h; rfl
  | cons arg args ih =>
    rw [initTriggersFrom] at h
    have hstep : ∀ a₁, a.initTrigger i arg = .ok a₁ → a₁.address = a.address := by
      intro a₁ h₁
      unfold initTrigger parsePropertyTrigger at h₁
      -- every branch that succeeds keeps the address
      grind
    cases h₁ : a.initTrigger i arg with
    | error e => rw [h₁] at h; cases h
    | ok a₁ =>
      rw [h₁] at h
      exact (ih h).trans (hstep a₁ h₁)

/-- The action of `QueueBuiltinAction` lies at the address it got, and has a command. -/
theorem builtinAction_spec {address func : Nat} {name : Str} {action : Action}
    (h : builtinAction address func name = .ok action) :
    action.address = address ∧ action.commands ≠ [] := by
  unfold builtinAction at h
  cases hinit : (Action.new address true).initTriggers [name] with
  | error e => rw [hinit] at h; cases h
  | ok a =>
    rw [hinit] at h
    cases h
    refine ⟨?_, ?_⟩
    · exact initTriggersFrom_address hinit
    · simp [addCommand]

section
variable (m : ActionManager)

/-- A request extends the manager. -/
theorem request_eq_extend {r : Request} (hfresh : m.Fresh r) (hm : Wellformed m.actions) :
    ∃ events new, m.request r = m.extend events new ∧ Wellformed (m.actions ++ new) := by
  have hadd : ∀ a : Action, newAddress r = some a.address → a.commands ≠ [] →
      Wellformed (m.actions ++ [a]) := by
    intro a ha hcommands
    constructor
    · rw [map_append, nodup_append]
      refine ⟨hm.nodup, nodup_singleton _, ?_⟩
      intro x hx y hy heq
      obtain ⟨b, hb, rfl⟩ := mem_map.mp hx
      obtain rfl : y = a.address := by simpa using hy
      exact hfresh a.address ha b hb heq
    · exact forall_mem_append.mpr ⟨hm.commands, forall_mem_singleton.mpr hcommands⟩
  cases r with
  | queueEventTrigger trigger =>
    exact ⟨[.eventTrigger trigger], [], by simp [request, queueEvent, extend], by simpa using hm⟩
  | queuePropertyChange name value =>
    exact ⟨[.propertyChange name value], [], by simp [request, queueEvent, extend],
      by simpa using hm⟩
  | queueAllPropertyActions =>
    exact ⟨[.propertyChange [] []], [], by simp [request, queueEvent, extend], by simpa using hm⟩
  | queueBuiltinAction address func name =>
    cases hbuiltin : builtinAction address func name with
    | error e =>
      exact ⟨[], [], by simp [request, queueBuiltinAction, hbuiltin, extend], by simpa using hm⟩
    | ok action =>
      obtain ⟨haddress, hcommands⟩ := builtinAction_spec hbuiltin
      refine ⟨[.builtinAction action.address], [action], ?_, ?_⟩
      · simp [request, queueBuiltinAction, hbuiltin, extend, queueEvent, addAction]
      · exact hadd action (by rw [haddress]; rfl) hcommands
  | endSection action =>
    by_cases hcommands : 0 < action.commands.length
    · refine ⟨[], [action], ?_, hadd action rfl (ne_nil_of_length_pos hcommands)⟩
      simp [request, if_pos hcommands, addAction, extend]
    · refine ⟨[], [], ?_, by simpa using hm⟩
      simp [request, hcommands, extend]

theorem extend_extend (es es' : List Event) (new new' : List Action) :
    (m.extend es new).extend es' new' = m.extend (es ++ es') (new ++ new') := by
  simp [extend]

/-- The requests of a command extend the manager. -/
theorem requests_eq_extend {rs : List Request} (hfresh : FreshAll m rs)
    (hm : Wellformed m.actions) :
    ∃ events new, m.requests rs = m.extend events new ∧ Wellformed (m.actions ++ new) := by
  induction rs generalizing m with
  | nil => exact ⟨[], [], by simp [requests, extend], by simpa using hm⟩
  | cons r rs ih =>
    obtain ⟨hr, hrs⟩ := hfresh
    obtain ⟨es, new, hrequest, hm'⟩ := m.request_eq_extend hr hm
    obtain ⟨es', new', hrequests, hm''⟩ := ih (m.request r) hrs (by rw [hrequest]; exact hm')
    refine ⟨es ++ es', new ++ new', ?_, ?_⟩
    · rw [← extend_extend, ← hrequest]
      exact hrequests
    · rw [hrequest] at hm''
      simpa [extend] using hm''

theorem added_extend (events : List Event) (new : List Action) :
    added m (m.extend events new) = events := by
  simp [added, extend]

end

/-! ### Looking up and erasing an action -/

variable {actions acts : List Action}

/-- All actions but one are left when an action is filtered out. -/
theorem length_filter_ne (hnodup : (actions.map Action.address).Nodup) (ha : a ∈ actions) :
    (actions.filter fun b => b.address ≠ a.address).length + 1 = actions.length := by
  rw [← countP_eq_length_filter, ← countP_true]
  refine countP_add_one hnodup.of_map ha rfl (by simp) ?_
  intro b hb hne
  exact decide_eq_true fun heq => hne (inj_on_of_nodup_map hnodup hb ha heq)

/-- Exactly the action is erased. -/
theorem Wellformed.eraseAction (h : Wellformed actions) (ha : a ∈ actions) :
    eraseAction actions a.address = some (actions.filter fun b => b.address ≠ a.address) := by
  have hlength := length_filter_ne h.nodup ha
  have hone : (actions.drop (actions.filter fun b => b.address ≠ a.address).length).tail
      = [] := by
    apply eq_nil_of_length_eq_zero
    rw [length_tail, length_drop]
    omega
  unfold ActionManager.eraseAction
  rw [if_neg (by omega), hone, append_nil]

theorem Wellformed.filter (h : Wellformed actions) (p : Action → Bool) :
    Wellformed (actions.filter p) where
  nodup := h.nodup.sublist (filter_sublist.map _)
  commands a ha := h.commands a (mem_filter.mp ha).1

/-! ### The invariant of the manager -/

/-- The manager between two steps: `acts` are the actions still to be executed. -/
structure Ready (m : ActionManager) (acts : List Action) : Prop where
  wellformed : Wellformed m.actions
  executing : m.currentExecutingActions = acts.map Action.address
  live : ∀ a ∈ acts, a ∈ m.actions
  distinct : (acts.map Action.address).Nodup
  idle : acts = [] → m.currentCommand = 0
  index : ∀ a, acts.head? = some a → m.currentCommand < a.commands.length

/-- The commands still to be executed. -/
def pending (m : ActionManager) (acts : List Action) : List Command :=
  (acts.flatMap commands).drop m.currentCommand

/-- The commands that come next: those still to be executed, and those that the queued events
trigger with the actions and the properties of now. -/
def upcoming (m : ActionManager) (getProperty : Str → Str) (acts : List Action) : List Command :=
  m.pending acts ++ m.eventQueue.flatMap fun event =>
    (matching getProperty m.actions event).flatMap commands

variable {m : ActionManager}

/-- More events and more actions change nothing about the actions to be executed. -/
theorem Ready.extend (h : Ready m acts) (events : List Event) {new : List Action}
    (hnew : Wellformed (m.actions ++ new)) :
    Ready (m.extend events new) acts where
  wellformed := hnew
  executing := h.executing
  live a ha := mem_append_left _ (h.live a ha)
  distinct := h.distinct
  idle := h.idle
  index := h.index

/-- The loop over the queue takes events up to the first that matches an action, or all of them
if there is none. -/
theorem dequeueLoop_spec (getProperty : Str → Str) (actions : List Action) (queue : List Event) :
    queue = (dequeueLoop getProperty actions queue).2.1
        ++ (dequeueLoop getProperty actions queue).1 ∧
      (dequeueLoop getProperty actions queue).2.1.flatMap (matching getProperty actions)
        = (dequeueLoop getProperty actions queue).2.2 ∧
      (dequeueLoop getProperty actions queue).2.2.Sublist actions ∧
      ((dequeueLoop getProperty actions queue).2.2 = [] →
        (dequeueLoop getProperty actions queue).1 = []) := by
  induction queue with
  | nil => exact ⟨rfl, rfl, nil_sublist actions, fun _ => rfl⟩
  | cons event queue ih =>
    obtain ⟨hqueue, hfound, hsub, hdrained⟩ := ih
    have hfilter : ∀ found, matching getProperty actions event = found →
        found.Sublist actions := by
      rintro found rfl
      exact filter_sublist
    rw [dequeueLoop]
    cases hmatching : matching getProperty actions event with
    | nil =>
      refine ⟨congrArg (event :: ·) hqueue, ?_, hsub, hdrained⟩
      show (event :: (dequeueLoop getProperty actions queue).2.1).flatMap _ = _
      rw [flatMap_cons, hmatching, hfound]
      rfl
    | cons a as =>
      refine ⟨rfl, ?_, hfilter _ hmatching, nofun⟩
      show matching getProperty actions event ++ [] = _
      rw [hmatching, append_nil]

/-- The start of `ExecuteOneCommand`: the actions to be executed are those there were, and
those that match the events taken off the queue. The queue is empty if there are none. -/
theorem Ready.dequeue (h : Ready m acts) (getProperty : Str → Str) :
    ∃ m' taken acts', m.dequeue getProperty = (m', taken) ∧ Ready m' acts' ∧
      m.eventQueue = taken ++ m'.eventQueue ∧ (acts' = [] → m'.eventQueue = []) ∧
      m'.pending acts' = m.pending acts ++ taken.flatMap fun event =>
        (matching getProperty m.actions event).flatMap commands := by
  unfold ActionManager.dequeue
  cases hacts : acts with
  | cons a as =>
    subst hacts
    have hne : m.currentExecutingActions ≠ [] := by
      rw [h.executing]
      simp
    rw [if_neg hne]
    exact ⟨m, [], a :: as, rfl, h, rfl, nofun, by simp⟩
  | nil =>
    subst hacts
    have hidle : m.currentExecutingActions = [] := h.executing
    rw [if_pos hidle]
    obtain ⟨hqueue, hfound, hsub, hdrained⟩ :=
      dequeueLoop_spec getProperty m.actions m.eventQueue
    refine ⟨_, _, (dequeueLoop getProperty m.actions m.eventQueue).2.2, rfl, ?_, hqueue,
      hdrained, ?_⟩
    · exact {
        wellformed := h.wellformed
        executing := rfl
        live := fun a ha => hsub.subset ha
        distinct := h.wellformed.nodup.sublist (hsub.map _)
        idle := fun _ => h.idle rfl
        index := by
          intro a ha
          show m.currentCommand < _
          rw [h.idle rfl]
          have hmem := hsub.subset (mem_of_head? ha)
          exact length_pos_iff.mpr (h.wellformed.commands a hmem) }
    · show drop m.currentCommand _ = drop m.currentCommand _ ++ _
      rw [h.idle rfl, ← hfound, flatMap_assoc]
      rfl

/-- The first action is left. -/
theorem Ready.tail {as : List Action} (h : Ready m (a :: as)) {m' : ActionManager}
    (hexecuting : m'.currentExecutingActions = m.currentExecutingActions.tail)
    (hcommand : m'.currentCommand = 0) (hactions : Wellformed m'.actions)
    (hlive : ∀ b ∈ as, b ∈ m'.actions) : Ready m' as where
  wellformed := hactions
  executing := by
    rw [hexecuting, h.executing]
    rfl
  live := hlive
  distinct := (nodup_cons.mp h.distinct).2
  idle _ := hcommand
  index b hb := by
    rw [hcommand]
    exact length_pos_iff.mpr (hactions.commands b (hlive b (mem_of_head? hb)))

/-- Behind a command: the action is left when it was the last one, and erased when it was
added for one execution. -/
theorem Ready.finishCommand {as : List Action} (h : Ready m (a :: as)) :
    ∃ m' acts', m.finishCommand a = some m' ∧ Ready m' acts' ∧
      m'.eventQueue = m.eventQueue ∧
      m'.pending acts' = ((a :: as).flatMap commands).drop (m.currentCommand + 1) := by
  have hlive : ∀ b ∈ as, b ∈ m.actions := fun b hb => h.live b (mem_cons_of_mem a hb)
  have hrest : ((a :: as).flatMap commands).drop a.commands.length = as.flatMap commands :=
    drop_left
  unfold ActionManager.finishCommand
  by_cases hlast : m.currentCommand + 1 = a.commands.length
  · -- the last command of the action
    rw [if_pos hlast, hlast, hrest]
    by_cases honeshot : a.oneshot = true
    · rw [if_pos honeshot, h.wellformed.eraseAction (h.live a mem_cons_self)]
      refine ⟨_, as, rfl, h.tail rfl rfl (h.wellformed.filter _) ?_, rfl, rfl⟩
      intro b hb
      have hne : b.address ≠ a.address :=
        fun heq => (nodup_cons.mp h.distinct).1 (heq ▸ mem_map_of_mem hb)
      exact mem_filter.mpr ⟨hlive b hb, decide_eq_true hne⟩
    · rw [if_neg honeshot]
      exact ⟨_, as, rfl, h.tail rfl rfl h.wellformed hlive, rfl, rfl⟩
  · rw [if_neg hlast]
    refine ⟨_, a :: as, rfl, ?_, rfl, rfl⟩
    exact {
      wellformed := h.wellformed
      executing := h.executing
      live := h.live
      distinct := h.distinct
      idle := fun hnil => absurd hnil (cons_ne_nil a as)
      index := by
        intro b hb
        obtain rfl : a = b := by simpa using hb
        have hindex := h.index a rfl
        show m.currentCommand + 1 < a.commands.length
        omega }

/-! ### The trace of a run -/

/-- The commands of the actions that matched a dequeued event. -/
def matched (d : Event × List Action × (Str → Str)) : List Command :=
  (matching d.2.2 d.2.1 d.1).flatMap commands

/-- What a trace has to do with the manager. -/
structure Account (s : ActionManager × Trace) (acts : List Action) : Prop where
  queue : s.2.queued = s.2.dequeued.map Prod.fst ++ s.1.eventQueue
  commands : s.2.dequeued.flatMap matched = s.2.executed ++ s.1.pending acts

/-- The addresses of the actions that a step makes are not in use. -/
def FreshStep (s : ActionManager × Trace) : Step → Prop
  | .request r => s.1.Fresh r
  | .execute getProperty rs => FreshAll (s.1.dequeue getProperty).1 rs

/-- The addresses of the actions that the steps of a run make are not in use. -/
def FreshFrom : ActionManager × Trace → List Step → Prop
  | _, [] => True
  | s, st :: steps => FreshStep s st ∧ ∀ s', step s st = some s' → FreshFrom s' steps

variable {s : ActionManager × Trace}

theorem flatMap_matched_taken (events : List Event) (actions : List Action)
    (getProperty : Str → Str) :
    (events.map fun event => (event, actions, getProperty)).flatMap matched
      = events.flatMap fun event =>
        (matching getProperty actions event).flatMap commands := by
  rw [flatMap_map]
  rfl

section
variable (hready : Ready s.1 acts) (haccount : Account s acts)
include hready haccount

theorem step_request {r : Request} (hfresh : s.1.Fresh r) :
    ∃ s', step s (.request r) = some s' ∧ Ready s'.1 acts ∧ Account s' acts := by
  obtain ⟨events, new, hrequest, hnew⟩ := s.1.request_eq_extend hfresh hready.wellformed
  refine ⟨_, rfl, ?_, ?_⟩
  · show Ready (s.1.request r) acts
    rw [hrequest]
    exact hready.extend events hnew
  · constructor
    · show s.2.queued ++ added s.1 (s.1.request r) = _ ++ (s.1.request r).eventQueue
      rw [hrequest, added_extend, haccount.queue, append_assoc]
      rfl
    · show _ = s.2.executed ++ (s.1.request r).pending acts
      rw [hrequest]
      exact haccount.commands

/-- `ExecuteOneCommand` keeps the account and executes the first command that comes next. When
there is none, it has emptied the queue. -/
theorem step_execute {getProperty : Str → Str} {rs : List Request}
    (hfresh : FreshAll (s.1.dequeue getProperty).1 rs) :
    ∃ s' acts', step s (.execute getProperty rs) = some s' ∧ Ready s'.1 acts' ∧
      Account s' acts' ∧
      s'.2.executed = s.2.executed ++ (s.1.upcoming getProperty acts).head?.toList ∧
      (s.1.upcoming getProperty acts = [] → s'.1.eventQueue = []) := by
  obtain ⟨m₁, taken, acts₁, hdequeue, hready₁, hqueue, hdrained, hpending⟩ :=
    hready.dequeue getProperty
  have hupcoming : s.1.upcoming getProperty acts = m₁.pending acts₁ ++
      m₁.eventQueue.flatMap fun event =>
        (matching getProperty s.1.actions event).flatMap commands := by
    rw [upcoming, hqueue, flatMap_append, hpending, append_assoc]
  rw [hdequeue] at hfresh
  have htaken : (s.2.dequeued ++ taken.map
      fun event => (event, s.1.actions, getProperty)).flatMap matched
        = s.2.executed ++ m₁.pending acts₁ := by
    rw [flatMap_append, flatMap_matched_taken, haccount.commands, append_assoc, ← hpending]
  have hevents : s.2.queued = (s.2.dequeued ++ taken.map
      fun event => (event, s.1.actions, getProperty)).map Prod.fst ++ m₁.eventQueue := by
    have hfst :
        Prod.fst ∘ (fun event => (event, s.1.actions, getProperty)) = (id : Event → Event) :=
      rfl
    rw [haccount.queue, hqueue, map_append, map_map, hfst, map_id, append_assoc]
  cases acts₁ with
  | nil =>
    -- no event has matched: nothing is executed
    have hexecute : s.1.executeOneCommand getProperty rs = some (m₁, ⟨taken, none⟩) := by
      have hnil : m₁.currentExecutingActions = [] := hready₁.executing
      simp [executeOneCommand, hdequeue, hnil]
    have hnone : s.1.upcoming getProperty acts = [] := by
      rw [hupcoming, hdrained rfl]
      simp [pending]
    refine ⟨_, [], by rw [step, hexecute]; rfl, hready₁, ⟨?_, ?_⟩, ?_, fun _ => hdrained rfl⟩
    · simpa using hevents
    · simpa using htaken
    · rw [hnone]
      rfl
  | cons a as =>
    obtain ⟨events, new, hrequests, hnew⟩ := m₁.requests_eq_extend hfresh hready₁.wellformed
    have hready₂ := hready₁.extend events hnew
    obtain ⟨m', acts', hfinish, hready', hqueue', hpending'⟩ := hready₂.finishCommand
    have hindex := hready₁.index a rfl
    obtain ⟨command, hcommand⟩ : ∃ command, a.commands[m₁.currentCommand]? = some command :=
      ⟨_, getElem?_eq_getElem hindex⟩
    have hexecute : s.1.executeOneCommand getProperty rs
        = some (m', ⟨taken, some command⟩) := by
      have hhead : m₁.currentExecutingActions = a.address :: as.map Action.address :=
        hready₁.executing
      have hfind := find?_of_nodup_map hready₁.wellformed.nodup
        (hready₁.live a mem_cons_self) rfl
      simp only [executeOneCommand, hdequeue, hhead, hfind, hrequests, hfinish,
        Option.bind_eq_bind, Option.bind_some, hcommand]
      rfl
    -- the command is the first of those that were still to come
    have hdrop : m₁.pending (a :: as) = command :: m'.pending acts' := by
      rw [hpending']
      show drop m₁.currentCommand _ = command :: drop (m₁.currentCommand + 1) _
      have hget : ((a :: as).flatMap commands)[m₁.currentCommand]? = some command := by
        rw [flatMap_cons, getElem?_append_left hindex, hcommand]
      obtain ⟨hlt, hget⟩ := List.getElem?_eq_some_iff.mp hget
      rw [drop_eq_getElem_cons hlt, hget]
    rw [hdrop] at hupcoming htaken
    refine ⟨_, acts', by rw [step, hexecute]; rfl, hready', ⟨?_, ?_⟩, ?_, ?_⟩
    · show s.2.queued ++ added (s.1.dequeue getProperty).1
        ((s.1.dequeue getProperty).1.requests rs) = _ ++ m'.eventQueue
      rw [hdequeue, hrequests, added_extend, hqueue', hevents, append_assoc]
      rfl
    · show _ = (s.2.executed ++ [command]) ++ m'.pending acts'
      rw [htaken]
      simp
    · rw [hupcoming]
      rfl
    · rw [hupcoming]
      nofun

/-- One step keeps the invariant and the account. -/
theorem step_account {st : Step} (hfresh : FreshStep s st) :
    ∃ s' acts', step s st = some s' ∧ Ready s'.1 acts' ∧ Account s' acts' := by
  cases st with
  | request r =>
    obtain ⟨s', hstep, hready', haccount'⟩ := step_request hready haccount hfresh
    exact ⟨s', acts, hstep, hready', haccount'⟩
  | execute getProperty rs =>
    obtain ⟨s', acts', hstep, hready', haccount', -⟩ := step_execute hready haccount hfresh
    exact ⟨s', acts', hstep, hready', haccount'⟩

/-- A sequence of steps keeps the invariant and the account. -/
theorem steps_account {steps : List Step} (hfresh : FreshFrom s steps) :
    ∃ s' acts', steps.foldlM step s = some s' ∧ Ready s'.1 acts' ∧ Account s' acts' := by
  induction steps generalizing s acts with
  | nil => exact ⟨s, acts, rfl, hready, haccount⟩
  | cons st steps ih =>
    obtain ⟨hst, hsteps⟩ := hfresh
    obtain ⟨s₁, acts₁, hstep, hready₁, haccount₁⟩ := step_account hready haccount hst
    obtain ⟨s', acts', hrest, hready', haccount'⟩ :=
      ih hready₁ haccount₁ (hsteps s₁ hstep)
    refine ⟨s', acts', ?_, hready', haccount'⟩
    rw [foldlM_cons, hstep]
    exact hrest

end

theorem ready_new (h : Wellformed actions) : Ready (new actions) [] where
  wellformed := h
  executing := rfl
  live a ha := absurd ha not_mem_nil
  distinct := nodup_nil
  idle _ := rfl
  index a ha := by cases ha

theorem account_new (actions : List Action) : Account (new actions, ⟨[], [], []⟩) [] where
  queue := rfl
  commands := rfl

/-- The account of a run, where `acts` are the actions still to be executed. -/
structure RunAccount (m : ActionManager) (tr : Trace) (acts : List Action) : Prop where
  /-- The events queued are those dequeued, in their order, and those in the queue. -/
  queue : tr.queued = tr.dequeued.map Prod.fst ++ m.eventQueue
  /-- The commands executed, and then those left of `acts`, are the commands of the actions that
  matched the dequeued events, event by event, action by action. -/
  commands : tr.dequeued.flatMap matched = tr.executed ++ m.pending acts
  executing : m.currentExecutingActions = acts.map Action.address
  live : ∀ a ∈ acts, a ∈ m.actions
  index : ∀ a, acts.head? = some a → m.currentCommand < a.commands.length
  /-- When there are no more commands, nothing is left. -/
  done : m.hasMoreCommands = false →
    tr.dequeued.map Prod.fst = tr.queued ∧ tr.executed = tr.dequeued.flatMap matched
  /-- `ExecuteOneCommand` executes the next command. When there is none, it has taken every event
  off the queue. -/
  progress : ∀ getProperty rs, FreshAll (m.dequeue getProperty).1 rs →
    ∃ m' tr', step (m, tr) (.execute getProperty rs) = some (m', tr') ∧
      tr'.executed = tr.executed ++ (m.upcoming getProperty acts).head?.toList ∧
      (m.upcoming getProperty acts = [] → m'.eventQueue = [])

/-- Every run from parsed actions with at least one command each goes through, with every
index in range, and has its account. -/
theorem run_account (actions : List Action) (hactions : Wellformed actions) (steps : List Step)
    (hfresh : FreshFrom (new actions, ⟨[], [], []⟩) steps) :
    ∃ m tr acts, run actions steps = some (m, tr) ∧ RunAccount m tr acts := by
  obtain ⟨⟨m, tr⟩, acts, hrun, hready, haccount⟩ :=
    steps_account (ready_new hactions) (account_new actions) hfresh
  refine ⟨m, tr, acts, hrun, haccount.queue, haccount.commands, hready.executing, hready.live,
    hready.index, ?_, ?_⟩
  · intro hmore
    obtain ⟨hidle, hqueue⟩ : m.currentExecutingActions = [] ∧ m.eventQueue = [] := by
      simpa [hasMoreCommands] using hmore
    have hacts : acts = [] := by
      have hmap : acts.map Action.address = [] := hready.executing.symm.trans hidle
      simpa using hmap
    constructor
    · have hqueued := haccount.queue
      rw [hqueue, append_nil] at hqueued
      exact hqueued.symm
    · have hcommands := haccount.commands
      rw [hacts] at hcommands
      simpa [pending] using hcommands.symm
  · intro getProperty rs hfresh
    obtain ⟨s', -, hstep, -, -, hnext, hdrained⟩ := step_execute hready haccount hfresh
    exact ⟨s'.1, s'.2, hstep, hnext, hdrained⟩

/-- An action on `a` with two commands. -/
def bootAction : Action where
  address := 1
  oneshot := false
  propertyTriggers := []
  eventTrigger := ['a']
  commands := [⟨0, []⟩, ⟨1, []⟩]

/-- The event `a`, and three calls of `ExecuteOneCommand`. The first command adds a builtin
action. -/
def bootSteps : List Step :=
  [.request (.queueEventTrigger ['a']), .execute (fun _ => []) [.queueBuiltinAction 2 7 ['b']],
    .execute (fun _ => []) [], .execute (fun _ => []) []]

theorem run_account_bootAction :
    ∃ m tr acts, run [bootAction] bootSteps = some (m, tr) ∧
      tr.executed = [⟨0, []⟩, ⟨1, []⟩, ⟨7, [['b']]⟩] ∧ RunAccount m tr acts := by
  have hwellformed : Wellformed [bootAction] := ⟨by decide, by decide⟩
  have hfresh : FreshFrom (new [bootAction], ⟨[], [], []⟩) bootSteps := by
    refine ⟨nofun, ?_⟩
    rintro s' ⟨rfl⟩
    refine ⟨⟨?_, trivial⟩, fun _ _ => ⟨trivial, fun _ _ => ⟨trivial, fun _ _ => trivial⟩⟩⟩
    intro address h a ha
    obtain rfl : 2 = address := by simpa [newAddress] using h
    obtain rfl : a = bootAction := by simpa [request, queueEvent, dequeue, new] using ha
    decide
  obtain ⟨m, tr, acts, hrun, haccount⟩ := run_account [bootAction] hwellformed _ hfresh
  have hexecuted : (run [bootAction] bootSteps).map (·.2.executed)
      = some [⟨0, []⟩, ⟨1, []⟩, ⟨7, [['b']]⟩] := rfl
  rw [hrun] at hexecuted
  exact ⟨m, tr, acts, hrun, Option.some.inj hexecuted, haccount⟩

end ActionManager

/-- What a property trigger asks for when the property `name` changes to `value`. -/
def Triggered (getProperty : Str → Str) (name value : Str) (t : Str × Str) : Prop :=
  if t.1 = name then t.2 = ['*'] ∨ t.2 = value
  else getProperty t.1 ≠ [] ∧ (t.2 = ['*'] ∨ t.2 = getProperty t.1)

theorem checkTriggers_iff (getProperty : Str → Str) (name value : Str) (found : Bool)
    (triggers : List (Str × Str)) :
    checkTriggers getProperty name value found triggers = true ↔
      (found = true ∨ name ∈ triggers.map Prod.fst) ∧
        ∀ t ∈ triggers, Triggered getProperty name value t := by
  induction triggers generalizing found with
  | nil => simp [checkTriggers]
  | cons t triggers ih =>
    rw [checkTriggers, map_cons, mem_cons, forall_mem_cons, Triggered]
    split <;> grind

/-- An action without an event trigger runs when a property changes exactly when it names the
property, and each property it names has the value it asks for. -/
theorem checkEvent_propertyChange_iff (getProperty : Str → Str) (a : Action) (name value : Str) :
    a.checkEvent getProperty (.propertyChange name value) = true ↔
      a.eventTrigger = [] ∧ (a.propertyTriggers = [] ∨
        (name = [] ∨ name ∈ a.propertyTriggers.map Prod.fst) ∧
          ∀ t ∈ a.propertyTriggers, Triggered getProperty name value t) := by
  rw [checkEvent, checkPropertyTriggers, decide_eq_true_iff]
  split
  · simp [*]
  · simp [checkTriggers_iff, *]

end AndroidCore.Init
