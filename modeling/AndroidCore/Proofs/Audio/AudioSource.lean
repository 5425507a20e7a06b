import AndroidCore.Audio.AudioSource
import AndroidCore.Lib.Transitions
import Mathlib.Tactic.ByContra
import Mathlib.Tactic.Tauto

/-!
# `AndroidCore.Proofs.Audio.AudioSource`: requests that wait and connections that were stopped

`m_RequestQueue` is only taken from when the requested connection becomes active or is refused
by an event. When the request that was taken from it cannot be started, nothing starts the one
after it: this step is the only one that leaves requests behind (`served_iff`).

`processStop` looks at the active connection alone. A connection that is requested, or waits in
the queue or as a task for the worker, is told that it stopped and is started later. A
connection that is nowhere there when it is stopped stays stopped (`run_restartFree`).
-/

namespace AndroidCore.Audio.AudioSource

open Lib List Transitions Option

/-! ### What the functions leave alone -/

section Frame

variable (s : AudioSource) (connection : Str)

/-- `start` adds a task, and nothing else. -/
theorem start_eq (client : Bool) :
    s.start connection client =
      s.push (if s.useAudioManagement then .processStart connection client
        else .doCallback connection .started) := by
  unfold start
  split <;> rfl

/-- So does `stop`. -/
theorem stop_eq :
    s.stop connection =
      s.push (if s.useAudioManagement then .processStop connection
        else .doCallback connection .stopped) := by
  unfold stop
  split <;> rfl

/-- What `registerListener` can do. -/
theorem registerListener_cases (listener : Option Nat) :
    ∃ listeners,
      (s.registerListener connection listener).1 = { s with listeners := listeners } := by
  unfold registerListener
  split
  · exact ⟨s.listeners, rfl⟩
  · split
    · exact ⟨s.listeners, rfl⟩
    · exact ⟨_, rfl⟩

/-- `startNext` takes the first request, if there is one. -/
theorem startNext_cases :
    s.requestQueue = [] ∧ s.startNext = s ∨
      ∃ next rest, s.requestQueue = next :: rest ∧
        s.startNext = { s.start next false with requestQueue := rest } := by
  unfold startNext
  cases h : s.requestQueue with
  | nil => exact .inl ⟨rfl, rfl⟩
  | cons next rest => exact .inr ⟨next, rest, rfl, rfl⟩

end Frame

/-- The callbacks that answer a start. -/
def isAnswer (callback : Callback) : Bool := callback = .started || callback = .startFailed

/-- The connections that a task answers, with `started()` or `startFailed()`. -/
def answers (s : AudioSource) (accepted : Bool) : Task → List Str
  | .processStart c _ => if s.requestedConnection = [] ∧ accepted = false then [c] else []
  | .processStop _ => []
  | .processAudioStateChange status =>
    if status = .readyToFade ∧ s.activeConnection = [] ∧ s.requestedConnection ≠ [] ∧
      s.audioStatus = .muted then [s.requestedConnection] else []
  | .processConnectionStateChange c status =>
    if status = .stopped ∧ s.activeConnection = [] ∧ c = s.requestedConnection then
      [s.requestedConnection] else []
  | .doCallback c callback => if isAnswer callback then [c] else []

/-- What a task does. Next to the starts, these are the tasks that answer nothing, those that
tell a connection that it stopped, those that answer the requested connection, and the callbacks
of a source without audio management. -/
inductive Ran (s : AudioSource) (accepted : Bool) : Task → AudioSource → Prop where
  | start (c : Str) (client : Bool) :
    Ran s accepted (.processStart c client) (s.processStart c accepted)
  | quiet {task : Task} (status : AudioStatus) (active : Str)
      (added : List (Callback × Str × Nat)) (ha : s.answers accepted task = [])
      (hadded : ∀ d ∈ added, isAnswer d.1 = false) :
    Ran s accepted task
      { s with
        audioStatus := status
        activeConnection := active
        delivered := s.delivered ++ added }
  | stopped (c active : Str) (hmuted : c = s.activeConnection → s.audioStatus = .muted) :
    Ran s accepted (.processStop c) { s.deliverStopped c with activeConnection := active }
  | answered {task : Task} (status : AudioStatus) (active : Str) (callback : Callback)
      (ha : s.answers accepted task = [s.requestedConnection])
      (hcallback : isAnswer callback = true)
      (hne : s.requestedConnection = [] →
        callback ≠ .started ∧ ∃ status, task = .processConnectionStateChange [] status) :
    Ran s accepted task
      ({ s with
        audioStatus := status
        activeConnection := active
        requestedConnection := [] }.doCallback s.requestedConnection callback).startNext
  | callback (c : Str) (callback : Callback) :
    Ran s accepted (.doCallback c callback) (s.doCallback c callback)

theorem ran_runTask (s : AudioSource) (accepted : Bool) (task : Task) :
    s.Ran accepted task (s.runTask accepted task) := by
  -- no callback at all
  have hnone : ∀ status, s.answers accepted task = [] →
      s.Ran accepted task { s with audioStatus := status } := by
    intro status ha
    have hquiet := Ran.quiet status s.activeConnection [] ha (by simp)
    rwa [append_nil] at hquiet
  cases task with
  | processStart c client => exact .start c client
  | processStop c =>
    rw [runTask, processStop]
    split
    · next hactive =>
        split
        · next hmuted => exact .stopped c [] fun _ => hmuted
        · exact hnone s.audioStatus rfl
    · next hactive => exact .stopped c s.activeConnection fun h => absurd h hactive
  | processAudioStateChange status =>
    cases status with
    | undefined | fadedIn => exact hnone _ rfl
    | muted =>
      simp only [runTask, processAudioStateChange]
      split
      · refine .quiet _ _ _ rfl ?_
        intro d hd
        obtain ⟨_, _, rfl⟩ := mem_map.mp hd
        rfl
      · exact hnone _ rfl
    | readyToFade =>
      simp only [runTask, processAudioStateChange]
      split
      · next h => exact .answered _ _ .started (if_pos ⟨rfl, h⟩) rfl fun hr => absurd hr h.2.1
      · next h => exact hnone _ (if_neg fun h' => h h'.2)
  | processConnectionStateChange c status =>
    rw [runTask, processConnectionStateChange]
    split
    · next h =>
        refine .answered _ _ .startFailed (if_pos h) rfl fun hr => ⟨by simp, status, ?_⟩
        rw [h.2.2, hr]
    · next h => exact hnone s.audioStatus (if_neg h)
  | doCallback c callback => exact .callback c callback

/-- `processStart` either waits, is requested or fails. -/
theorem processStart_cases (s : AudioSource) (connection : Str) (accepted : Bool) :
    (s.requestedConnection ≠ [] ∧ s.processStart connection accepted =
        { s with
          requestQueue := s.requestQueue ++ [connection]
          everQueued := s.everQueued ++ [connection] }) ∨
      (s.requestedConnection = [] ∧ accepted = true ∧
        s.processStart connection accepted = { s with requestedConnection := connection }) ∨
      (s.requestedConnection = [] ∧ accepted = false ∧
        s.processStart connection accepted = s.doCallback connection .startFailed) := by
  unfold processStart
  split
  · next h => exact .inl ⟨h, rfl⟩
  · next h =>
      rw [not_not] at h
      split
      · next ha => exact .inr (.inl ⟨h, ha, rfl⟩)
      · next ha => exact .inr (.inr ⟨h, Bool.eq_false_iff.mpr ha, rfl⟩)

/-- The tasks of a source with audio management, and of one without. -/
def fits (useAudioManagement : Bool) : Task → Bool
  | .processStart _ _ => useAudioManagement
  | .processStop _ => useAudioManagement
  | .doCallback _ _ => !useAudioManagement
  | .processAudioStateChange _ => true
  | .processConnectionStateChange _ _ => true

variable {s s' : AudioSource} {a : Action}

/-- A step of the worker runs its next task. All other steps change the listeners or add tasks:
starts that come from clients, of connections that are no longer halted, and others. -/
theorem step_cases (hs : s.step a = some s') :
    (∃ accepted task rest, a = .work accepted ∧ s.tasks = task :: rest ∧
        s' = { s with tasks := rest }.runTask accepted task) ∨
      ((∀ accepted, a ≠ .work accepted) ∧ ∃ added listeners halted,
        s' = { s with tasks := s.tasks ++ added, listeners := listeners, halted := halted } ∧
        halted ⊆ s.halted ∧ (∀ task ∈ added, fits s.useAudioManagement task = true) ∧
        ∀ c client, .processStart c client ∈ added → client = true ∧ c ∉ halted) := by
  have hlisteners : ∀ listeners, { s with listeners := listeners } =
      { s with tasks := s.tasks ++ [], listeners := listeners, halted := s.halted } := by
    intro listeners
    rw [append_nil]
  cases a with
  | start connection =>
    cases hs
    refine .inr ⟨by simp, _, s.listeners, _, by rw [start_eq]; rfl, filter_sublist.subset, ?_⟩
    by_cases hmode : s.useAudioManagement = true
    · simp [hmode, fits]
    · simp [hmode, fits]
  | stop connection =>
    cases hs
    refine .inr ⟨by simp, _, s.listeners, _, stop_eq s connection, fun _ hc => hc, ?_⟩
    by_cases hmode : s.useAudioManagement = true
    · simp [hmode, fits]
    · simp [hmode, fits]
  | onAudioStatusChanged status | onAudioConnectionStatusChanged connection status =>
    cases hs
    exact .inr ⟨by simp, _, _, _, rfl, fun _ hc => hc, by simp [fits], by simp⟩
  | registerListener connection listener =>
    cases hs
    obtain ⟨listeners, heq⟩ := s.registerListener_cases connection listener
    exact .inr ⟨by simp, [], listeners, _, heq.trans (hlisteners _), fun _ hc => hc, by simp,
      by simp⟩
  | cancelListenerRegistration connection listener =>
    cases hs
    exact .inr ⟨by simp, [], _, _, hlisteners _, fun _ hc => hc, by simp, by simp⟩
  | work accepted =>
    simp only [step] at hs
    split at hs
    · cases hs
    · next task rest htasks =>
        exact .inl ⟨accepted, task, rest, rfl, htasks, (some.inj hs).symm⟩

/-! ### What holds in every state -/

/-- Every request of the queue was put there, and without audio management nothing is ever
requested or stopped. -/
structure Inv (s : AudioSource) : Prop where
  known : ∀ c ∈ s.requestQueue, c ∈ s.everQueued
  tasks_fit : ∀ task ∈ s.tasks, fits s.useAudioManagement task = true
  unmanaged : s.useAudioManagement = false →
    s.requestQueue = [] ∧ s.requestedConnection = [] ∧ s.halted = []

theorem inv_new (useAudioManagement : Bool) : (new useAudioManagement).Inv where
  known := by simp [new]
  tasks_fit := by simp [new]
  unmanaged := by simp [new]

namespace Inv

/-- The invariant is about the requests and the tasks only. -/
theorem congr {t : AudioSource} (h : s.Inv) (hq : t.requestQueue = s.requestQueue)
    (hr : t.requestedConnection = s.requestedConnection) (he : t.everQueued = s.everQueued)
    (hm : t.useAudioManagement = s.useAudioManagement) (ht : t.tasks ⊆ s.tasks)
    (hh : t.halted ⊆ s.halted) : t.Inv where
  known := by
    rw [hq, he]
    exact h.known
  tasks_fit := by
    rw [hm]
    exact fun task htask => h.tasks_fit task (ht htask)
  unmanaged := by
    rw [hq, hr, hm]
    intro hmode
    obtain ⟨hqueue, hrequested, hhalted⟩ := h.unmanaged hmode
    exact ⟨hqueue, hrequested, subset_nil.mp (hhalted ▸ hh)⟩

/-- With audio management only the queue and the tasks matter. -/
theorem of_managed (hmode : s.useAudioManagement = true)
    (hk : ∀ c ∈ s.requestQueue, c ∈ s.everQueued)
    (ht : ∀ task ∈ s.tasks, fits s.useAudioManagement task = true) : s.Inv :=
  ⟨hk, ht, fun h => absurd (h.symm.trans hmode) Bool.false_ne_true⟩

variable {task : Task}

section

variable (h : s.Inv)
include h

theorem push (hfits : fits s.useAudioManagement task = true) : (s.push task).Inv where
  known := h.known
  tasks_fit := forall_mem_append.mpr ⟨h.tasks_fit, forall_mem_singleton.mpr hfits⟩
  unmanaged := h.unmanaged

theorem start (connection : Str) (client : Bool) : (s.start connection client).Inv := by
  rw [start_eq]
  apply h.push
  split
  · assumption
  · next hmode => simp [fits, hmode]

/-- A request waits under audio management only. -/
theorem managed_of_requestQueue (hq : s.requestQueue ≠ []) : s.useAudioManagement = true := by
  by_contra hmode
  exact hq (h.unmanaged (Bool.eq_false_iff.mpr hmode)).1

theorem startNext : s.startNext.Inv := by
  rcases s.startNext_cases with ⟨_, heq⟩ | ⟨next, rest, hq, heq⟩
  · rw [heq]
    exact h
  · have hstart := h.start next false
    have hmode := h.managed_of_requestQueue (hq ▸ cons_ne_nil next rest)
    rw [heq]
    refine of_managed ?_ ?_ hstart.tasks_fit
    · rw [start_eq]
      exact hmode
    · intro c hc
      rw [start_eq]
      exact h.known c (hq ▸ mem_cons_of_mem next hc)

/-- A request is taken back. -/
theorem clear : { s with requestedConnection := [] }.Inv where
  known := h.known
  tasks_fit := h.tasks_fit
  unmanaged hmode := ⟨(h.unmanaged hmode).1, rfl, (h.unmanaged hmode).2.2⟩

/-- The state from which the next request is taken. -/
theorem decided {status : AudioStatus} {active : Str} {delivered : List (Callback × Str × Nat)} :
    { s with
      audioStatus := status
      activeConnection := active
      requestedConnection := []
      delivered := delivered }.Inv :=
  h.clear.congr rfl rfl rfl rfl (Subset.refl _) (Subset.refl _)

theorem processStart (hmode : s.useAudioManagement = true) (connection : Str) (accepted : Bool) :
    (s.processStart connection accepted).Inv := by
  rcases s.processStart_cases connection accepted with ⟨_, heq⟩ | ⟨_, _, heq⟩ | ⟨_, _, heq⟩
  · rw [heq]
    exact of_managed hmode (forall_mem_append.mpr
      ⟨fun c hc => mem_append_left _ (h.known c hc), fun c => mem_append_right _⟩) h.tasks_fit
  · rw [heq]
    exact of_managed hmode h.known h.tasks_fit
  · rw [heq]
    exact of_managed hmode h.known h.tasks_fit

theorem runTask (accepted : Bool) (hfits : fits s.useAudioManagement task = true) :
    (s.runTask accepted task).Inv := by
  have hran := s.ran_runTask accepted task
  generalize s.runTask accepted task = s' at hran ⊢
  cases hran with
  | start c client => exact h.processStart hfits c accepted
  | stopped c active hmuted => exact of_managed hfits h.known h.tasks_fit
  | answered => exact Inv.startNext h.decided
  | quiet | callback => exact h.congr rfl rfl rfl rfl (Subset.refl _) (Subset.refl _)

/-- The worker takes its next task. -/
theorem take {rest : List Task} (htasks : s.tasks = task :: rest) : { s with tasks := rest }.Inv :=
  h.congr rfl rfl rfl rfl
    (htasks ▸ subset_cons_self task rest) (Subset.refl _)

theorem step (hs : s.step a = some s') : s'.Inv := by
  rcases step_cases hs with ⟨accepted, task, rest, _, htasks, rfl⟩ |
    ⟨_, added, listeners, halted, rfl, hhalted, hfits, _⟩
  · exact (h.take htasks).runTask accepted (h.tasks_fit task (htasks ▸ mem_cons_self))
  · have hkept := h.congr (t := { s with listeners := listeners, halted := halted })
      rfl rfl rfl rfl (Subset.refl _) hhalted
    exact ⟨hkept.known, forall_mem_append.mpr ⟨hkept.tasks_fit, hfits⟩, hkept.unmanaged⟩

end

end Inv

/-! ### Requests that nothing will start -/

/-- A start of a connection that was in the queue waits for the worker. -/
def pendingQueued (s : AudioSource) : Prop :=
  ∃ c ∈ s.everQueued, ∃ client, Task.processStart c client ∈ s.tasks

/-- Something will take the next request from the queue. -/
def Served (s : AudioSource) : Prop :=
  s.requestQueue ≠ [] → s.requestedConnection ≠ [] ∨ s.pendingQueued

/-- The worker cannot start a connection while others wait, and no other start of a connection
that was in the queue is left. -/
def Strands (s : AudioSource) : Action → Prop
  | .work accepted =>
    ∃ c client rest, s.tasks = .processStart c client :: rest ∧ s.requestedConnection = [] ∧
      s.requestQueue ≠ [] ∧ (accepted = false ∨ c = []) ∧
      ¬ { s with tasks := rest }.pendingQueued
  | _ => False

/-- Nothing is lost while the queue is the same and all pending starts are kept. -/
theorem Served.congr {t : AudioSource} (h : s.Served) (hq : t.requestQueue = s.requestQueue)
    (hr : t.requestedConnection = s.requestedConnection) (he : t.everQueued = s.everQueued)
    (ht : ∀ c client, Task.processStart c client ∈ s.tasks → .processStart c client ∈ t.tasks) :
    t.Served := by
  intro hne
  rw [hq] at hne
  rw [hr]
  rcases h hne with hrequested | ⟨c, hc, client, htask⟩
  · exact .inl hrequested
  · exact .inr ⟨c, he ▸ hc, client, ht c client htask⟩

/-- When the next request is started, the ones after it will be served. -/
theorem Inv.served_startNext (h : s.Inv) : s.startNext.Served := by
  rcases s.startNext_cases with ⟨hnil, heq⟩ | ⟨next, rest, hq, heq⟩
  · rw [heq]
    exact fun hne => absurd hnil hne
  · have hmode := h.managed_of_requestQueue (hq ▸ cons_ne_nil next rest)
    rw [heq, start_eq, if_pos hmode]
    intro _
    refine .inr ⟨next, h.known next (hq ▸ mem_cons_self), false, ?_⟩
    exact mem_append_right _ (mem_singleton_self _)

/-- The tasks that start nothing leave a later start for the requests that wait. -/
theorem Served.runTask (h : s.Served) (hinv : s.Inv) (accepted : Bool) {task : Task}
    (htask : ∀ c client, task ≠ .processStart c client) : (s.runTask accepted task).Served := by
  have hran := s.ran_runTask accepted task
  generalize s.runTask accepted task = s' at hran ⊢
  cases hran with
  | start c client => exact absurd rfl (htask c client)
  | answered => exact Inv.served_startNext hinv.decided
  | stopped | quiet | callback => exact h.congr rfl rfl rfl fun _ _ hc => hc

/-- After the worker has tried a start, the requests that wait are served if and only if one is
requested now or another start is pending. -/
theorem served_processStart_iff (s : AudioSource) (connection : Str) (accepted : Bool) :
    (s.processStart connection accepted).Served ↔
      ¬ (s.requestedConnection = [] ∧ s.requestQueue ≠ [] ∧
        (accepted = false ∨ connection = []) ∧ ¬ s.pendingQueued) := by
  rcases s.processStart_cases connection accepted with
    ⟨hr, heq⟩ | ⟨hr, ha, heq⟩ | ⟨hr, ha, heq⟩
  · rw [heq]
    exact iff_of_true (fun _ => .inl hr) (fun hbad => hr hbad.1)
  · rw [heq, Served, ha]
    tauto
  · rw [heq, Served]
    tauto

/-- One step leaves requests behind exactly when it strands them. -/
theorem served_step (hinv : s.Inv) (h : s.Served) (hs : s.step a = some s') :
    s'.Served ↔ ¬ s.Strands a := by
  rcases step_cases hs with ⟨accepted, task, rest, rfl, htasks, rfl⟩ |
    ⟨hcall, added, _, _, rfl, _⟩
  · by_cases htask : ∃ c client, task = .processStart c client
    · obtain ⟨c, client, rfl⟩ := htask
      rw [runTask, served_processStart_iff, not_iff_not]
      constructor
      · intro hbad
        exact ⟨c, client, rest, htasks, hbad⟩
      · rintro ⟨c', client', rest', htasks', hbad⟩
        obtain ⟨hhead, rfl⟩ := cons.inj (htasks ▸ htasks')
        obtain ⟨rfl, _⟩ := Task.processStart.inj hhead
        exact hbad
    · have hother : ∀ c client, task ≠ .processStart c client :=
        fun c client heq => htask ⟨c, client, heq⟩
      have hkept : { s with tasks := rest }.Served := by
        apply h.congr (t := { s with tasks := rest }) rfl rfl rfl
        intro c client hc
        rw [htasks] at hc
        exact (mem_cons.mp hc).resolve_left (hother c client).symm
      refine iff_of_true (hkept.runTask (hinv.take htasks) accepted hother) ?_
      rintro ⟨c, client, rest', htasks', _⟩
      exact hother c client (cons.inj (htasks ▸ htasks')).1
  · refine iff_of_true (h.congr rfl rfl rfl fun _ _ => mem_append_left _) ?_
    cases a with
    | work accepted => exact absurd rfl (hcall accepted)
    | _ => exact not_false

/-- In all states of a run the requests that wait are served, if and only if no step of the
worker fails to start a connection while requests wait and nothing else takes them. -/
theorem served_iff (useAudioManagement : Bool) (actions : List Action) :
    Always step Served (new useAudioManagement) actions ↔
      Along step (fun s a => ¬ s.Strands a) (new useAudioManagement) actions := by
  apply always_iff_along (J := Inv)
  · exact fun s a s' hinv => hinv.step
  · exact fun s a s' => served_step
  · exact inv_new useAudioManagement
  · exact fun hne => absurd rfl hne

theorem not_served (hq : s.requestQueue ≠ []) (hr : s.requestedConnection = [])
    (ht : s.tasks = []) :
    ¬ s.Served := by
  intro h
  rcases h hq with hrequested | ⟨c, _, client, htask⟩
  · exact hrequested hr
  · rw [ht] at htask
    exact not_mem_nil htask

/-- Three connections are started. The first one becomes active, so the worker is to start the
second one, and the audio management refuses it. -/
def refusedAfterQueue : List Action :=
  [.start ['a'], .start ['b'], .start ['c'], .work true, .work true, .work true,
   .onAudioStatusChanged .muted, .onAudioStatusChanged .readyToFade, .work true, .work true,
   .work false]

/-- The third connection stays in the queue: nothing is requested and the worker has no task. -/
theorem refusedAfterQueue_stranded :
    ∃ s, run step (new true) refusedAfterQueue = some s ∧
      s.requestQueue = [['c']] ∧ s.requestedConnection = [] ∧ s.tasks = [] ∧ ¬ s.Served :=
  ⟨_, rfl, rfl, rfl, rfl, not_served (cons_ne_nil _ _) rfl rfl⟩

/-! ### Connections that are started after they were stopped -/

/-- The connection will be started with no further call: it is requested, or waits in the queue
or, taken from there, for the worker. -/
def Awaits (s : AudioSource) (connection : Str) : Prop :=
  (s.requestedConnection ≠ [] ∧ s.requestedConnection = connection) ∨
    connection ∈ s.requestQueue ∨ Task.processStart connection false ∈ s.tasks

instance (s : AudioSource) (connection : Str) : Decidable (s.Awaits connection) :=
  inferInstanceAs (Decidable (_ ∨ _))

/-- The connection that the step stops. -/
def nextStop (s : AudioSource) (a : Action) : Option Str :=
  match a, s.tasks with
  | .work _, .processStop c :: _ => some c
  | _, _ => none

/-- The worker does not tell a connection that it stopped while the connection awaits its
start. -/
def StopsCleanly (s : AudioSource) (a : Action) : Prop :=
  ∀ c ∈ s.nextStop a, (c = s.activeConnection → s.audioStatus = .muted) → ¬ s.Awaits c

instance (s : AudioSource) (a : Action) : Decidable (s.StopsCleanly a) :=
  inferInstanceAs (Decidable (∀ c ∈ s.nextStop a, _))

/-- The step delivers no `started()` for a connection that was stopped, with no call of `start`
since the call of `stop`. -/
def RestartFree (s : AudioSource) (a : Action) : Prop :=
  ∀ s', s.step a = some s' → ∀ c ∈ s.halted, ∀ listener,
    s'.delivered.count (.started, c, listener) = s.delivered.count (.started, c, listener)

/-- Nothing is under way for a connection that was stopped. -/
def Quiet (s : AudioSource) : Prop :=
  ∀ c ∈ s.halted, ¬ s.Awaits c ∧ Task.processStart c true ∉ s.tasks

/-- Of the halted connections, none is requested, waits, or has a start among the tasks. -/
theorem quiet_iff (s : AudioSource) :
    s.Quiet ↔ ∀ c ∈ s.halted, (s.requestedConnection ≠ [] → s.requestedConnection ≠ c) ∧
      c ∉ s.requestQueue ∧ ∀ client, Task.processStart c client ∉ s.tasks := by
  simp only [Quiet, Awaits, Bool.forall_bool]
  refine forall₂_congr fun c _ => ?_
  tauto

/-- Nothing new is under way. -/
theorem Quiet.congr {t : AudioSource} (h : s.Quiet) (hh : t.halted ⊆ s.halted)
    (hr : t.requestedConnection = s.requestedConnection ∨ t.requestedConnection = [])
    (hq : t.requestQueue ⊆ s.requestQueue)
    (ht : ∀ c client, c ∈ t.halted → .processStart c client ∈ t.tasks →
      Task.processStart c client ∈ s.tasks) : t.Quiet := by
  rw [quiet_iff] at h ⊢
  intro c hc
  obtain ⟨hrequested, hqueue, htasks⟩ := h c (hh hc)
  refine ⟨?_, fun hcq => hqueue (hq hcq), fun client hct => htasks client (ht c client hc hct)⟩
  intro hne
  rcases hr with hr | hr
  · rw [hr] at hne ⊢
    exact hrequested hne
  · exact absurd hr hne

theorem Quiet.startNext (h : s.Quiet) : s.startNext.Quiet := by
  rcases s.startNext_cases with ⟨_, heq⟩ | ⟨next, rest, hq, heq⟩
  · rw [heq]
    exact h
  · rw [heq, start_eq]
    refine h.congr (Subset.refl _) (.inl rfl) (hq ▸ subset_cons_self next rest) ?_
    intro c client hhalted hc
    rcases mem_append.mp hc with hc | hc
    · exact hc
    · -- the connection that is started was in the queue, so it is not halted
      have hne : c ≠ next := by
        rintro rfl
        exact ((quiet_iff s).mp h c hhalted).2.1 (hq ▸ mem_cons_self)
      have heq := mem_singleton.mp hc
      split at heq
      · exact absurd (Task.processStart.inj heq).1 hne
      · cases heq

variable {connection : Str}

/-- A start of a connection that is not halted. -/
theorem Quiet.processStart (h : s.Quiet) (hc : connection ∉ s.halted) (accepted : Bool) :
    (s.processStart connection accepted).Quiet := by
  rw [quiet_iff] at h
  rcases s.processStart_cases connection accepted with ⟨_, heq⟩ | ⟨_, _, heq⟩ | ⟨_, _, heq⟩
  · rw [heq, quiet_iff]
    intro c hhalted
    obtain ⟨hrequested, hqueue, htasks⟩ := h c hhalted
    refine ⟨hrequested, ?_, htasks⟩
    intro hmem
    rcases mem_append.mp hmem with hmem | hmem
    · exact hqueue hmem
    · exact hc (mem_singleton.mp hmem ▸ hhalted)
  · rw [heq, quiet_iff]
    intro c hhalted
    obtain ⟨_, hqueue, htasks⟩ := h c hhalted
    refine ⟨?_, hqueue, htasks⟩
    rintro _ rfl
    exact hc hhalted
  · rw [heq, quiet_iff]
    exact h

/-- A stop of a connection that awaits no start. -/
theorem Quiet.deliverStopped (h : s.Quiet) (hc : ¬ s.Awaits connection) (active : Str) :
    { s.deliverStopped connection with activeConnection := active }.Quiet := by
  intro c hhalted
  simp only [AudioSource.deliverStopped] at hhalted
  split at hhalted
  · exact h c hhalted
  · next hagain =>
      rcases mem_cons.mp hhalted with rfl | hhalted
      · exact ⟨hc, hagain⟩
      · exact h c hhalted

/-- The callbacks of other kinds, and to listeners of other connections, deliver no `started()`. -/
theorem count_doCallback {c : Str} {callback : Callback} (h : callback = .started → c ≠ connection)
    (listener : Nat) :
    (s.doCallback connection callback).delivered.count (.started, c, listener) =
      s.delivered.count (.started, c, listener) := by
  unfold doCallback
  rw [count_append, Nat.add_eq_left, count_eq_zero]
  intro hmem
  obtain ⟨l, hl, heq⟩ := mem_map.mp hmem
  have hconnection : l.1 = connection := by simpa using (mem_filter.mp hl).2
  obtain ⟨hcallback, hrest⟩ := Prod.mk.inj heq
  exact h hcallback ((Prod.mk.inj hrest).1 ▸ hconnection)

theorem startNext_delivered (s : AudioSource) : s.startNext.delivered = s.delivered := by
  rcases s.startNext_cases with ⟨_, heq⟩ | ⟨_, _, _, heq⟩
  · rw [heq]
  · rw [heq, start_eq]
    rfl

/-- A task that meets the condition starts no halted connection, and leaves them quiet. -/
theorem Quiet.runTask (h : s.Quiet) (hinv : s.Inv) (accepted : Bool) {task : Task}
    (hfits : fits s.useAudioManagement task = true)
    (hstart : ∀ c client, task = .processStart c client → c ∉ s.halted)
    (hstop : ∀ c, task = .processStop c → (c = s.activeConnection → s.audioStatus = .muted) →
      ¬ s.Awaits c) :
    (s.runTask accepted task).Quiet ∧ ∀ c ∈ s.halted, ∀ listener,
      (s.runTask accepted task).delivered.count (.started, c, listener) =
        s.delivered.count (.started, c, listener) := by
  have hran := s.ran_runTask accepted task
  generalize s.runTask accepted task = s' at hran ⊢
  cases hran with
  | start c client =>
    refine ⟨h.processStart (hstart c client rfl) accepted, ?_⟩
    intro c' _ listener
    rcases s.processStart_cases c accepted with ⟨_, heq⟩ | ⟨_, _, heq⟩ | ⟨_, _, heq⟩
    · rw [heq]
    · rw [heq]
    · rw [heq]
      exact count_doCallback (by simp) listener
  | stopped c active hmuted =>
    refine ⟨h.deliverStopped (hstop c rfl hmuted) active, ?_⟩
    exact fun c' _ => count_doCallback (by simp)
  | quiet status active added _ hadded =>
    refine ⟨h.congr (Subset.refl _) (.inl rfl) (Subset.refl _) fun _ _ _ hc => hc, ?_⟩
    intro c _ listener
    have hnot : (Callback.started, c, listener) ∉ added :=
      fun hmem => absurd (hadded _ hmem) (by simp [isAnswer])
    rw [count_append, count_eq_zero.mpr hnot, Nat.add_zero]
  | answered status active callback _ _ hne =>
    constructor
    · apply Quiet.startNext
      exact h.congr (Subset.refl _) (.inr rfl) (Subset.refl _) fun _ _ _ hc => hc
    · intro c hc listener
      rw [startNext_delivered]
      -- the connection that becomes active was requested, so it is not halted
      refine count_doCallback (fun hstarted => ?_) listener
      exact (((quiet_iff s).mp h c hc).1 fun hr => (hne hr).1 hstarted).symm
  | callback c callback =>
    -- only without audio management, where nothing is ever halted
    have hmode : s.useAudioManagement = false := by simpa [fits] using hfits
    refine ⟨h.congr (Subset.refl _) (.inl rfl) (Subset.refl _) fun _ _ _ hc => hc, ?_⟩
    intro c hc
    rw [(hinv.unmanaged hmode).2.2] at hc
    exact absurd hc not_mem_nil

/-- One step that meets the condition. -/
theorem Quiet.step (h : s.Quiet) (hinv : s.Inv) (hclean : s.StopsCleanly a)
    (hs : s.step a = some s') : s'.Quiet ∧ s.RestartFree a := by
  have hfree : (∀ c ∈ s.halted, ∀ listener, s'.delivered.count (.started, c, listener) =
      s.delivered.count (.started, c, listener)) → s.RestartFree a := by
    intro hcount t ht
    obtain rfl := some.inj (hs.symm.trans ht)
    exact hcount
  rcases step_cases hs with ⟨accepted, task, rest, rfl, htasks, rfl⟩ |
    ⟨_, added, _, _, rfl, hhalted, _, hadded⟩
  · have hrest : { s with tasks := rest }.Quiet := by
      refine h.congr (Subset.refl _) (.inl rfl)
        (Subset.refl _) ?_
      exact fun c client _ hc => htasks ▸ mem_cons_of_mem task hc
    obtain ⟨hquiet, hcount⟩ := hrest.runTask (hinv.take htasks) accepted
      (hinv.tasks_fit task (htasks ▸ mem_cons_self))
      (by
        rintro c client rfl hhalted
        exact ((quiet_iff s).mp h c hhalted).2.2 client (htasks ▸ mem_cons_self))
      (by
        rintro c rfl hdelivers hawaits
        refine hclean c (by simp [nextStop, htasks]) hdelivers ?_
        rcases hawaits with hawaits | hawaits | hawaits
        · exact .inl hawaits
        · exact .inr (.inl hawaits)
        · exact .inr (.inr (htasks ▸ mem_cons_of_mem _ hawaits)))
    exact ⟨hquiet, hfree hcount⟩
  · refine ⟨?_, hfree fun _ _ _ => rfl⟩
    refine h.congr hhalted (.inl rfl) (Subset.refl _) ?_
    intro c client hc hmem
    -- a new start is of a connection that is no longer halted
    exact (mem_append.mp hmem).resolve_right fun hnew => (hadded c client hnew).2 hc

/-- In a run in which no connection is told that it stopped while it awaits its start, no
connection is started after it was stopped. -/
theorem run_restartFree (useAudioManagement : Bool) (actions : List Action)
    (h : Along step StopsCleanly (new useAudioManagement) actions) :
    Along step RestartFree (new useAudioManagement) actions := by
  refine along_of_invariant (I := fun s => s.Inv ∧ s.Quiet) ?_
    ⟨inv_new useAudioManagement, fun c hc => absurd hc not_mem_nil⟩ h
  intro s a s' hs hclean hstep
  obtain ⟨hquiet, hfree⟩ := hs.2.step hs.1 hclean hstep
  exact ⟨hfree, hs.1.step hstep, hquiet⟩

/-- A connection is started, stopped when its audio is muted, gets two more audio events, and is
started again. -/
def stopWhileMuted : List Action :=
  [.registerListener ['a'] (some 0), .start ['a'], .work true, .onAudioStatusChanged .muted,
   .onAudioStatusChanged .readyToFade, .work true, .work true, .onAudioStatusChanged .muted,
   .work true, .stop ['a'], .work true, .onAudioStatusChanged .muted,
   .onAudioStatusChanged .readyToFade, .work true, .work true, .start ['a'], .work true,
   .onAudioStatusChanged .muted, .onAudioStatusChanged .readyToFade, .work true, .work true]

theorem run_restartFree_stopWhileMuted :
    ((run step (new true) stopWhileMuted).map AudioSource.delivered) =
        some [(.started, ['a'], 0), (.onAudioConnectionMuted, ['a'], 0), (.stopped, ['a'], 0),
          (.started, ['a'], 0)] ∧
      Along step StopsCleanly (new true) stopWhileMuted ∧
      Along step RestartFree (new true) stopWhileMuted := by
  have h : Along step StopsCleanly (new true) stopWhileMuted := by decide
  exact ⟨rfl, h, run_restartFree true stopWhileMuted h⟩

/-- The connection is requested when it is stopped. -/
def stopWhileRequested : List Action :=
  [.registerListener ['a'] (some 0), .start ['a'], .work true, .stop ['a'], .work true,
   .onAudioStatusChanged .muted, .onAudioStatusChanged .readyToFade, .work true]

/-- The listener is told that the connection stopped, and then that it started, with no call
between. -/
theorem stopWhileRequested_restarts :
    ∃ s s', run step (new true) stopWhileRequested = some s ∧
      s.step (.work true) = some s' ∧ s.halted = [['a']] ∧
      s'.delivered = [(.stopped, ['a'], 0), (.started, ['a'], 0)] ∧
      ¬ Along step RestartFree (new true) (stopWhileRequested ++ [.work true]) := by
  refine ⟨_, _, rfl, rfl, rfl, rfl, ?_⟩
  intro h
  have hfree := Along.of_run h rfl rfl
  exact absurd (hfree _ rfl ['a'] mem_cons_self 0) (by decide)

end AndroidCore.Audio.AudioSource
