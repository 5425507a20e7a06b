import AndroidCore.Proofs.Audio.AudioSource
import Mathlib.Data.List.Forall2

/-!
# `AndroidCore.Proofs.Audio.StartOrder`: the order in which starts are answered

A request that is taken from `m_RequestQueue` goes back to the worker thread, behind the tasks
that wait there. When a client's start is among them, it is handled first and overtakes the
request (`startBetween_overtaken`). Where this does not happen, requests are answered in the
order in which `processStart` first handled them (`answered_in_order`).
-/

namespace AndroidCore.Audio.AudioSource

open Lib List Transitions

/-- The connections that a task handles for the first time: `processStart`, for a client. -/
def handles : Task → List Str
  | .processStart c true => [c]
  | _ => []

/-- The calls of `started` and `startFailed` among those that were delivered. -/
def told (delivered : List (Callback × Str × Nat)) : List (Callback × Str × Nat) :=
  delivered.filter fun d => isAnswer d.1

theorem told_doCallback (s : AudioSource) (connection : Str) (callback : Callback) :
    told (s.doCallback connection callback).delivered = told s.delivered ++
      if isAnswer callback then
        (s.listeners.filter fun l => l.1 = connection).map (callback, ·) else [] := by
  unfold told doCallback
  rw [filter_append, filter_map]
  cases h : isAnswer callback with
  | true | false => simp [Function.comp_def, h]

/-- A task calls the listeners of the connections that it answers, and no others, all with
`started` or all with `startFailed`. -/
theorem told_runTask (s : AudioSource) (accepted : Bool) (task : Task) :
    ∃ callback, isAnswer callback = true ∧
      told (s.runTask accepted task).delivered = told s.delivered ++
        (s.answers accepted task).flatMap fun c =>
          (s.listeners.filter fun l => l.1 = c).map (callback, ·) := by
  have hran := s.ran_runTask accepted task
  generalize s.runTask accepted task = s' at hran ⊢
  cases hran with
  | start c client =>
    refine ⟨.startFailed, rfl, ?_⟩
    rw [answers]
    rcases s.processStart_cases c accepted with ⟨hr, heq⟩ | ⟨_, ha, heq⟩ | ⟨hr, ha, heq⟩
    · rw [heq]
      simp [hr]
    · rw [heq]
      simp [ha]
    · rw [heq, told_doCallback]
      simp [hr, ha, isAnswer]
  | stopped c active _ => exact ⟨.started, rfl, told_doCallback s c .stopped⟩
  | quiet status active added ha hadded =>
    have hfilter : added.filter (fun d => isAnswer d.1) = [] := by
      rw [filter_eq_nil_iff]
      exact fun d hd => Bool.eq_false_iff.mp (hadded d hd)
    refine ⟨.started, rfl, ?_⟩
    rw [ha, told, filter_append, hfilter, append_nil, flatMap_nil, append_nil, told]
  | answered status active callback ha hcallback _ =>
    refine ⟨callback, hcallback, ?_⟩
    rw [ha, startNext_delivered, told_doCallback, if_pos hcallback, flatMap_singleton]
  | callback c callback =>
    rw [answers]
    split
    next hcallback =>
      refine ⟨callback, hcallback, ?_⟩
      rw [told_doCallback, if_pos hcallback, flatMap_singleton]
    next hcallback =>
      refine ⟨.started, rfl, ?_⟩
      rw [told_doCallback, if_neg hcallback, flatMap_nil]

/-- The calls answer the connection: they are all `started`, or all `startFailed`, of
listeners of it. -/
def AnswersTo (c : Str) (calls : List (Callback × Str × Nat)) : Prop :=
  ∃ callback, ∃ listeners : List (Str × Nat), isAnswer callback = true ∧
    (∀ l ∈ listeners, l.1 = c) ∧ calls = listeners.map (callback, ·)

/-- The answers that were delivered are those to the connections, one after the other. -/
def Tells (answered : List Str) (delivered : List (Callback × Str × Nat)) : Prop :=
  ∃ calls, told delivered = calls.flatten ∧ Forall₂ AnswersTo answered calls

/-- What a task answers is told behind what was told before. -/
theorem Tells.runTask {s : AudioSource} {answered : List Str} (h : Tells answered s.delivered)
    (accepted : Bool) (task : Task) :
    Tells (answered ++ s.answers accepted task) (s.runTask accepted task).delivered := by
  obtain ⟨calls, htold, hcalls⟩ := h
  obtain ⟨callback, hcallback, hrun⟩ := s.told_runTask accepted task
  let call (c : Str) := (s.listeners.filter fun l => l.1 = c).map (callback, ·)
  have hcall : ∀ c ∈ s.answers accepted task, AnswersTo c (call c) := by
    intro c _
    refine ⟨callback, _, hcallback, fun l hl => ?_, rfl⟩
    simpa using (mem_filter.mp hl).2
  refine ⟨calls ++ (s.answers accepted task).map call, ?_, rel_append hcalls ?_⟩
  · rw [hrun, htold, flatten_append, flatMap_def]
  · exact forall₂_map_right_iff.mpr (forall₂_same.mpr hcall)

/-- A source with the history of its requests: the connections as `processStart` first handled
them, and as they were answered. -/
structure Traced where
  source : AudioSource
  handled : List Str
  answered : List Str
  deriving DecidableEq, Repr

/-- One step, with what it adds to the history. -/
def Traced.step (t : Traced) (a : Action) : Option Traced :=
  (t.source.step a).map fun s =>
    match a, t.source.tasks with
    | .work accepted, task :: rest =>
      ⟨s, t.handled ++ handles task,
        t.answered ++ { t.source with tasks := rest }.answers accepted task⟩
    | _, _ => { t with source := s }

/-- The connection that a task of the worker starts again. -/
def requeued : Task → Option Str
  | .processStart c false => some c
  | _ => none

/-- `changeConnectionStatus` succeeds, the connections of starts and events have names, the
source uses audio management, and no client's start is handled before one from the queue that
waits behind it. -/
def keepsOrder (accepted : Bool) (rest : List Task) : Task → Bool
  | .processStart c client => accepted && c ≠ [] && (client → rest.filterMap requeued = [])
  | .processConnectionStateChange c _ => c ≠ []
  | .doCallback _ callback => !isAnswer callback
  | _ => true

/-- The worker takes a task that keeps the order. -/
def Traced.keepsOrder (t : Traced) (a : Action) : Bool :=
  match a, t.source.tasks with
  | .work accepted, task :: rest => AudioSource.keepsOrder accepted rest task
  | _, _ => true

/-- The requests that were handled and are not answered, in their order: first the one that is
requested, or that is started again, and then those of the queue. -/
inductive InLine (s : AudioSource) (handled answered : List Str) : Prop where
  | idle (hr : s.requestedConnection = []) (ht : s.tasks.filterMap requeued = [])
      (hq : s.requestQueue = []) (hl : handled = answered)
  | requested (hr : s.requestedConnection ≠ []) (ht : s.tasks.filterMap requeued = [])
      (hl : handled = answered ++ s.requestedConnection :: s.requestQueue)
  | requeued (next : Str) (hr : s.requestedConnection = [])
      (ht : s.tasks.filterMap requeued = [next])
      (hl : handled = answered ++ next :: s.requestQueue)

namespace InLine

variable {s : AudioSource} {handled answered : List Str}

section

variable (h : s.InLine handled answered)
include h

theorem congr {t : AudioSource} (hr : t.requestedConnection = s.requestedConnection)
    (hq : t.requestQueue = s.requestQueue)
    (ht : t.tasks.filterMap AudioSource.requeued = s.tasks.filterMap AudioSource.requeued) :
    t.InLine handled answered := by
  cases h with
  | idle hr' ht' hq' hl => exact idle (hr.trans hr') (ht.trans ht') (hq.trans hq') hl
  | requested hr' ht' hl => exact requested (hr ▸ hr') (ht.trans ht') (hr ▸ hq ▸ hl)
  | requeued next hr' ht' hl => exact requeued next (hr.trans hr') (ht.trans ht') (hq ▸ hl)

/-- The requested connection is answered, and the next one is started. -/
theorem startNext {t : AudioSource} (hinv : t.Inv) (hne : s.requestedConnection ≠ [])
    (hr : t.requestedConnection = []) (hq : t.requestQueue = s.requestQueue)
    (ht : t.tasks = s.tasks) :
    t.startNext.InLine handled (answered ++ [s.requestedConnection]) := by
  cases h with
  | idle hr' | requeued _ hr' => exact absurd hr' hne
  | requested _ ht' hl =>
    rw [← ht] at ht'
    rw [← hq, append_cons] at hl
    rcases t.startNext_cases with ⟨hnil, heq⟩ | ⟨next, rest, hcons, heq⟩
    · rw [heq]
      rw [hnil, append_nil] at hl
      exact idle hr ht' hnil hl
    · have hmode := hinv.managed_of_requestQueue (hcons ▸ cons_ne_nil next rest)
      rw [heq, start_eq, if_pos hmode]
      refine requeued next hr ?_ (hcons ▸ hl)
      show (t.tasks ++ [Task.processStart next false]).filterMap AudioSource.requeued = [next]
      rw [filterMap_append, ht']
      rfl

/-- A start that comes from a client. -/
theorem processStart_client {c : Str} (hc : c ≠ [])
    (ht : s.tasks.filterMap AudioSource.requeued = []) :
    (s.processStart c true).InLine (handled ++ [c]) answered := by
  rcases s.processStart_cases c true with ⟨hr, heq⟩ | ⟨hr, _, heq⟩ | ⟨_, ha, _⟩
  · rw [heq]
    cases h with
    | idle hr' | requeued _ hr' => exact absurd hr' hr
    | requested _ _ hl =>
      refine requested hr ht ?_
      rw [hl, append_assoc, cons_append]
  · rw [heq]
    cases h with
    | idle _ _ hq hl => exact requested hc ht (by rw [hl, hq])
    | requested hr' => exact absurd hr hr'
    | requeued _ _ ht' => exact absurd (ht.symm.trans ht') (by simp)
  · cases ha

/-- A start that was taken from the queue. -/
theorem processStart_requeued {rest : List Task} {c : Str} (hc : c ≠ [])
    (htasks : s.tasks = .processStart c false :: rest) :
    ({ s with tasks := rest }.processStart c true).InLine handled answered := by
  have hhead : s.tasks.filterMap AudioSource.requeued =
      c :: rest.filterMap AudioSource.requeued := by
    rw [htasks]
    rfl
  cases h with
  | idle _ ht | requested _ ht => exact absurd (hhead.symm.trans ht) (by simp)
  | requeued next hr ht hl =>
    obtain ⟨rfl, hrest⟩ := cons.inj (hhead.symm.trans ht)
    rw [processStart, if_neg (not_not.mpr hr)]
    exact requested hc hrest hl

/-- A task that keeps the order. -/
theorem runTask {task : Task} {rest : List Task} {accepted : Bool} (hinv : s.Inv)
    (htasks : s.tasks = task :: rest) (hkeeps : keepsOrder accepted rest task = true) :
    ({ s with tasks := rest }.runTask accepted task).InLine (handled ++ handles task)
      (answered ++ { s with tasks := rest }.answers accepted task) := by
  have hrest : AudioSource.requeued task = none →
      { s with tasks := rest }.InLine handled answered := by
    intro hnone
    refine h.congr rfl rfl ?_
    rw [htasks, filterMap_cons_none hnone]
  by_cases hstart : ∃ c client, task = .processStart c client
  · obtain ⟨c, client, rfl⟩ := hstart
    simp only [keepsOrder, Bool.and_eq_true, decide_eq_true_eq] at hkeeps
    obtain ⟨⟨rfl, hc⟩, hclient⟩ := hkeeps
    have ha : { s with tasks := rest }.answers true (.processStart c client) = [] :=
      if_neg (by simp)
    rw [ha, append_nil]
    cases client with
    | true => exact (hrest rfl).processStart_client hc (hclient rfl)
    | false =>
      simp only [handles, append_nil]
      exact h.processStart_requeued hc htasks
  · have hother : handles task = [] ∧ AudioSource.requeued task = none := by
      cases task with
      | processStart c client => exact absurd ⟨c, client, rfl⟩ hstart
      | _ => exact ⟨rfl, rfl⟩
    have hline := hrest hother.2
    rw [hother.1, append_nil]
    have hran := { s with tasks := rest }.ran_runTask accepted task
    generalize { s with tasks := rest }.runTask accepted task = s' at hran ⊢
    cases hran with
    | start c client => exact absurd ⟨c, client, rfl⟩ hstart
    | stopped c active _ =>
      rw [answers, append_nil]
      exact hline.congr rfl rfl rfl
    | quiet status active added ha _ =>
      rw [ha, append_nil]
      exact hline.congr rfl rfl rfl
    | answered status active callback ha _ hne =>
      rw [ha]
      refine hline.startNext (hinv.take htasks).decided (fun hr => ?_) rfl rfl rfl
      obtain ⟨_, _, rfl⟩ := hne hr
      exact absurd hkeeps (by simp [keepsOrder])
    | callback c callback =>
      have hcallback : isAnswer callback = false := by simpa [keepsOrder] using hkeeps
      rw [answers, hcallback, if_neg Bool.false_ne_true, append_nil]
      exact hline.congr rfl rfl rfl

end

end InLine

/-- The source with its invariant, the requests in line, and the answers that were told. -/
structure Traced.Ordered (t : Traced) : Prop where
  inv : t.source.Inv
  inLine : t.source.InLine t.handled t.answered
  tells : Tells t.answered t.source.delivered

/-- One step that keeps the order adds to the answers what it tells. -/
theorem Traced.Ordered.step {t t' : Traced} {a : Action} (h : t.Ordered)
    (hkeeps : t.keepsOrder a = true) (hs : t.step a = some t') : t'.Ordered := by
  obtain ⟨s', hs', rfl⟩ := Option.map_eq_some_iff.mp hs
  rcases step_cases hs' with ⟨accepted, task, rest, rfl, htasks, rfl⟩ |
    ⟨hcall, added, listeners, halted, rfl, _, _, hadded⟩
  · simp only [Traced.keepsOrder, htasks] at hkeeps
    simp only [htasks]
    exact ⟨h.inv.step hs', h.inLine.runTask h.inv htasks hkeeps,
      Tells.runTask (s := { t.source with tasks := rest }) h.tells accepted task⟩
  · have hnone : added.filterMap requeued = [] := by
      rw [filterMap_eq_nil_iff]
      intro task htask
      cases task with
      | processStart c client =>
        rw [(hadded c client htask).1]
        rfl
      | _ => rfl
    cases a with
    | work accepted => exact absurd rfl (hcall accepted)
    | _ =>
      refine ⟨h.inv.step hs', h.inLine.congr rfl rfl ?_, h.tells⟩
      simp [hnone]

/-- In a run in which every task keeps the order, the requests are answered in the order in
which they were handled. The answers are the calls of `started` and `startFailed` that were
delivered. -/
theorem answered_in_order (useAudioManagement : Bool) (actions : List Action) (t : Traced)
    (h : Along Traced.step (fun t a => t.keepsOrder a = true)
      ⟨new useAudioManagement, [], []⟩ actions)
    (hrun : run Traced.step ⟨new useAudioManagement, [], []⟩ actions = some t) :
    t.answered <+: t.handled ∧ Tells t.answered t.source.delivered := by
  have hordered : t.Ordered :=
    run_invariant_along (fun _ _ _ ht => ht.step)
      ⟨inv_new useAudioManagement, .idle rfl rfl rfl rfl, ⟨[], rfl, .nil⟩⟩ h hrun
  refine ⟨?_, hordered.tells⟩
  cases hordered.inLine with
  | idle _ _ _ hl => exact hl ▸ prefix_rfl
  | requested _ _ hl | requeued _ _ _ hl => exact ⟨_, hl.symm⟩

/-- Two connections are started one after the other. -/
def startTwo : List Action :=
  [.registerListener ['a'] (some 0), .start ['a'], .start ['b'], .work true, .work true,
   .onAudioStatusChanged .muted, .onAudioStatusChanged .readyToFade, .work true, .work true,
   .work true]

theorem answered_in_order_startTwo :
    ∃ t, run Traced.step ⟨new true, [], []⟩ startTwo = some t ∧
      t.answered = [['a']] ∧ t.handled = [['a'], ['b']] ∧ t.answered <+: t.handled ∧
      Tells t.answered t.source.delivered :=
  ⟨_, rfl, rfl, rfl, answered_in_order true startTwo _ (by decide) rfl⟩

/-- The second connection waits in the queue. The client starts a third one just before the
first becomes active, so that the worker finds the second one behind it. -/
def startBetween : List Action :=
  [.registerListener ['a'] (some 0), .registerListener ['b'] (some 1),
   .registerListener ['c'] (some 2), .start ['a'], .start ['b'], .work true, .work true,
   .onAudioStatusChanged .muted, .onAudioStatusChanged .readyToFade, .start ['c'], .work true,
   .work true, .work true, .work true, .onAudioStatusChanged .muted,
   .onAudioStatusChanged .readyToFade, .work true, .work true]

/-- The third connection is told that it started, and the second one still waits. -/
theorem startBetween_overtaken :
    .work false ∉ startBetween ∧
    ∃ t, run Traced.step ⟨new true, [], []⟩ startBetween = some t ∧
      t.handled = [['a'], ['b'], ['c']] ∧ t.answered = [['a'], ['c']] ∧
      told t.source.delivered = [(.started, ['a'], 0), (.started, ['c'], 2)] ∧
      ¬ t.answered <+: t.handled :=
  ⟨by decide, _, rfl, rfl, rfl, rfl, by decide⟩

end AndroidCore.Audio.AudioSource
