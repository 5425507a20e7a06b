import AndroidCore.Proofs.Debuggerd.Tombstoned
import Mathlib.Data.Nat.ModEq

/-!
# `AndroidCore.Proofs.Debuggerd.OutputFiles`: which dumps share a file

`get_output` hands out the names of a queue in a ring. `Named` ties the name of a dump in
progress to the call that handed it out: the `i`-th call gives the `i`-th name of the ring. So
two dumps share a name exactly when the calls that named them are a multiple of
`max_artifacts_` apart (`noSharing_iff`).

The `CHECK` of the constructor bounds the number of dumps at one time, not the number of names
that are handed out while a dump is in progress. A dump that takes long enough shares its file
with a later one (`slowTrace_shared`).
-/

namespace AndroidCore.Debuggerd

open Lib List Transitions CrashQueue Function Option

/-! ### Names -/

theorem twoDigits_injective : Injective twoDigits := by
  have hvalue : ∀ n, Nat.ofDigitChars 10 (twoDigits n) 0 = n := by
    intro n
    rw [twoDigits]
    split
    · exact Nat.ofDigitChars_toDigits (by decide) (by decide)
    · exact Nat.ofDigitChars_toDigits (by decide) (by decide)
  intro m n h
  rw [← hvalue m, h, hvalue]

/-- Different artifacts have different paths. -/
theorem path_inj (config : QueueConfig) {m n : Nat} : path config m = path config n ↔ m = n := by
  constructor
  · intro h
    rw [path, path, append_cancel_left_eq, cons.injEq, append_cancel_left_eq] at h
    exact twoDigits_injective h.2
  · exact congrArg _

theorem path_ne_nil (config : QueueConfig) (n : Nat) : path config n ≠ [] := by
  simp [path]

namespace Tombstoned

/-- The crashes that the calls of `get_output` of a queue were for, in their order. -/
def names (t : Tombstoned) (kind : QueueKind) : List Nat :=
  (t.outputs.filter fun e => e.1 = kind).map Prod.snd

/-- No two dumps of the queue that are in progress were handed the same file. -/
def NoSharing (t : Tombstoned) (kind : QueueKind) : Prop :=
  ∀ a ∈ t.inProgress kind, ∀ b ∈ t.inProgress kind, a.id ≠ b.id →
    a.crashPath ≠ [] → b.crashPath ≠ [] → a.crashPath ≠ b.crashPath

/-- No two dumps of the queue that are in progress were named by calls of `get_output` that are
a multiple of `max_artifacts_` apart. -/
def Spread (t : Tombstoned) (kind : QueueKind) : Prop :=
  ∀ a ∈ t.inProgress kind, ∀ b ∈ t.inProgress kind, a.id ≠ b.id →
    ∀ i j, (t.names kind)[i]? = some a.id → (t.names kind)[j]? = some b.id →
      i % (t.queues kind).config.maxArtifacts ≠ j % (t.queues kind).config.maxArtifacts

/-- The names that are in use. `start` is the first artifact of each queue. -/
structure Named (start : QueueKind → Nat) (t : Tombstoned) : Prop where
  next : ∀ kind, (t.queues kind).nextArtifact
    = (start kind + (t.names kind).length) % (t.queues kind).config.maxArtifacts
  /-- Who was handed a name is in progress or deleted. -/
  settled : ∀ e ∈ t.outputs, 0 < countIn t.running e.2 + t.deleted.count e.2
  path : ∀ crash ∈ t.running, ∀ i, (t.names crash.queue)[i]? = some crash.id →
    crash.crashPath = path (t.queues crash.queue).config
      ((start crash.queue + i) % (t.queues crash.queue).config.maxArtifacts)
  named : ∀ crash ∈ t.running, crash.crashPath ≠ [] →
    ∃ i : Nat, (t.names crash.queue)[i]? = some crash.id
  waiting : ∀ crash ∈ t.requested, crash.crashPath = []
  queued : ∀ kind, ∀ crash ∈ (t.queues kind).queuedRequests, crash.crashPath = []

variable {start : QueueKind → Nat} {t : Tombstoned}

/-- The names tell which dumps share a file. -/
theorem Named.noSharing (h : Named start t) (kind : QueueKind) :
    t.NoSharing kind ↔ t.Spread kind := by
  have hmem : ∀ crash ∈ t.inProgress kind, crash ∈ t.running ∧ crash.queue = kind := by
    intro crash hcrash
    rw [inProgress, mem_filter, decide_eq_true_eq] at hcrash
    exact hcrash
  -- equal places in the ring
  have hring : ∀ m s i j : Nat, (s + i) % m = (s + j) % m ↔ i % m = j % m := by
    intro m s i j
    exact ⟨Nat.ModEq.add_left_cancel' s, Nat.ModEq.add_left s⟩
  constructor
  · intro hno a ha b hb hab i j hi hj heq
    obtain ⟨harun, rfl⟩ := hmem a ha
    obtain ⟨hbrun, hbkind⟩ := hmem b hb
    have hapath := h.path a harun i hi
    have hbpath := h.path b hbrun j (by rw [hbkind]; exact hj)
    rw [hbkind] at hbpath
    refine hno a ha b hb hab ?_ ?_ ?_
    · rw [hapath]
      exact path_ne_nil _ _
    · rw [hbpath]
      exact path_ne_nil _ _
    · rw [hapath, hbpath, path_inj, hring]
      exact heq
  · intro hspread a ha b hb hab hane hbne heq
    obtain ⟨harun, rfl⟩ := hmem a ha
    obtain ⟨hbrun, hbkind⟩ := hmem b hb
    obtain ⟨i, hi⟩ := h.named a harun hane
    obtain ⟨j, hj⟩ := h.named b hbrun hbne
    have hapath := h.path a harun i hi
    have hbpath := h.path b hbrun j hj
    rw [hbkind] at hbpath hj
    rw [hapath, hbpath, path_inj, hring] at heq
    exact hspread a ha b hb hab i j hi hj heq

/-! ### `perform_request` -/

theorem names_append (t : Tombstoned) (kind queue : QueueKind) (id : Nat) :
    ((t.outputs ++ [(queue, id)]).filter fun e => e.1 = kind).map Prod.snd
      = t.names kind ++ if queue = kind then [id] else [] := by
  rw [names, filter_append]
  by_cases hkind : queue = kind
  · simp [hkind]
  · simp [hkind]

theorem getElem?_append_if {l : List Nat} {x y i : Nat} {p : Prop} [Decidable p] :
    (l ++ if p then [x] else [])[i]? = some y ↔
      l[i]? = some y ∨ p ∧ i = l.length ∧ x = y := by
  by_cases hp : p
  · grind
  · simp [hp]

/-- The names after `perform_request` are those behind `findOutput`. -/
theorem performRequest_names (t : Tombstoned) (attempt : Attempt) (crash : Crash) :
    (t.performRequest attempt crash).outputs = (t.findOutput attempt crash).2.outputs ∧
      (∀ kind, ((t.performRequest attempt crash).queues kind).nextArtifact
        = ((t.findOutput attempt crash).2.queues kind).nextArtifact) ∧
      ∀ c ∈ (t.performRequest attempt crash).running,
        c ∈ t.running ∨ c = (t.findOutput attempt crash).1 := by
  obtain ⟨path, queues, outputs, hfind, -⟩ := findOutput_spec t attempt crash
  -- `attempted` is not read
  have hattempted : ∀ a, findOutput { t with attempted := a } attempt crash
      = ((t.findOutput attempt crash).1, { (t.findOutput attempt crash).2 with
          attempted := a }) := by
    intro a
    unfold findOutput
    split <;> rfl
  rw [performRequest, hattempted, hfind]
  simp only
  split
  · refine ⟨rfl, ?_, fun c hc => ?_⟩
    · exact (forall_update_iff queues fun kind q =>
        q.nextArtifact = (queues kind).nextArtifact).mpr ⟨rfl, fun _ _ => rfl⟩
    · simpa using hc
  · exact ⟨rfl, fun _ => rfl, fun c => .inl⟩

variable {crash : Crash}

/-- A crash in the hand is nowhere else. -/
theorem Inv.hand_fresh (h : Inv [crash] t) :
    countIn t.running crash.id = 0 ∧ t.deleted.count crash.id = 0 := by
  have hplaces := h.places crash.id
  rw [countIn_singleton, if_pos rfl] at hplaces
  split at hplaces <;> constructor <;> omega

theorem countIn_pos {crashes : List Crash} (h : crash ∈ crashes) : 0 < countIn crashes crash.id :=
  count_pos_iff.mpr (mem_map_of_mem h)

variable {t' : Tombstoned}

/-- Who is in progress or deleted stays so when one more is. -/
theorem Performed.settled (h : Performed t crash t') {id : Nat}
    (hid : 0 < countIn t.running id + t.deleted.count id ∨ id = crash.id) :
    0 < countIn t'.running id + t'.deleted.count id := by
  rcases h.outcome with ⟨⟨path, hrunning⟩, hdeleted, -⟩ | ⟨hrunning, hdeleted, -⟩
  · rw [hrunning, hdeleted, countIn_append, countIn_singleton]
    rcases hid with hid | rfl
    · omega
    · rw [if_pos rfl]
      omega
  · rw [hrunning, hdeleted, count_append, count_singleton]
    rcases hid with hid | rfl
    · omega
    · rw [if_pos (by rw [beq_self_eq_true])]
      omega

/-- Nothing is handed out, and who is in progress or deleted stays so. -/
theorem Named.of_same (h : Named start t)
    (hqueues : ∀ kind, (t'.queues kind).nextArtifact = (t.queues kind).nextArtifact ∧
      (t'.queues kind).config = (t.queues kind).config) (houtputs : t'.outputs = t.outputs)
    (hrunning : ∀ crash ∈ t'.running, crash ∈ t.running ∨
      crash.crashPath = [] ∧ crash.id ∉ t.names crash.queue)
    (hsettled : ∀ id, 0 < countIn t.running id + t.deleted.count id →
      0 < countIn t'.running id + t'.deleted.count id)
    (hwaiting : ∀ crash ∈ t'.requested, crash.crashPath = [])
    (hqueued : ∀ kind, ∀ crash ∈ (t'.queues kind).queuedRequests, crash.crashPath = []) :
    Named start t' := by
  have hsame : ∀ kind, t'.names kind = t.names kind := fun kind => by
    rw [names, houtputs, names]
  refine ⟨?_, ?_, ?_, ?_, hwaiting, hqueued⟩
  · intro kind
    rw [(hqueues kind).1, (hqueues kind).2, hsame]
    exact h.next kind
  · intro e he
    rw [houtputs] at he
    exact hsettled e.2 (h.settled e he)
  · intro crash hcrash i hi
    rw [hsame] at hi
    rw [(hqueues _).2]
    rcases hrunning crash hcrash with hold | ⟨-, hnew⟩
    · exact h.path crash hold i hi
    · exact absurd (mem_of_getElem? hi) hnew
  · intro crash hcrash hne
    rw [hsame]
    rcases hrunning crash hcrash with hold | ⟨hpath, -⟩
    · exact h.named crash hold hne
    · exact absurd hpath hne

theorem Named.performRequest (h : Named start t) (hinv : Inv [crash] t)
    (hpath : crash.crashPath = []) (attempt : Attempt) :
    Named start (t.performRequest attempt crash) := by
  have hspec := performRequest_spec t attempt crash
  have hnames := performRequest_names t attempt crash
  generalize t.performRequest attempt crash = t' at hspec hnames ⊢
  obtain ⟨hrun, hdel⟩ := hinv.hand_fresh
  have hne : ∀ c ∈ t.running, c.id ≠ crash.id := by
    intro c hc heq
    have hpos := countIn_pos hc
    rw [heq] at hpos
    omega
  -- the crash has no name yet
  have hfresh : ∀ kind, crash.id ∉ t.names kind := by
    intro kind hmem
    obtain ⟨e, he, heq⟩ := mem_map.mp hmem
    have hpos := h.settled e (mem_filter.mp he).1
    rw [heq] at hpos
    omega
  have hwaiting : ∀ c ∈ t'.requested, c.crashPath = [] := by
    intro c hc
    rw [hspec.requested] at hc
    exact h.waiting c hc
  have hqueued : ∀ kind, ∀ c ∈ (t'.queues kind).queuedRequests, c.crashPath = [] := by
    intro kind c hc
    rw [hspec.queued] at hc
    exact h.queued kind c hc
  obtain ⟨houtputs, hnext, hmem⟩ := hnames
  cases hintercepted : attempt.intercepted with
  | true =>
    simp only [findOutput, hintercepted] at houtputs hnext hmem
    refine h.of_same (fun kind => ⟨hnext kind, hspec.config kind⟩) houtputs ?_ ?_ hwaiting hqueued
    · intro c hc
      rcases hmem c hc with hc | rfl
      · exact .inl hc
      · exact .inr ⟨hpath, hfresh _⟩
    · exact fun id hid => hspec.settled (.inl hid)
  | false =>
    simp only [findOutput, hintercepted, Bool.false_eq_true, ↓reduceIte] at houtputs hnext hmem
    have hsame : ∀ kind, t'.names kind
        = t.names kind ++ if crash.queue = kind then [crash.id] else [] := fun kind => by
      rw [names, houtputs]
      exact names_append t kind crash.queue crash.id
    refine ⟨?_, ?_, ?_, ?_, hwaiting, hqueued⟩
    · intro kind
      rw [hnext, hsame, hspec.config]
      by_cases hkind : kind = crash.queue
      · subst hkind
        rw [setQueue_self, getOutput, h.next, if_pos rfl, length_append]
        exact Nat.mod_add_mod _ _ _
      · rw [setQueue_of_ne t _ hkind, h.next, if_neg (Ne.symm hkind), append_nil]
    · intro e he
      rw [houtputs] at he
      rcases mem_append.mp he with he | he
      · exact hspec.settled (.inl (h.settled e he))
      · rw [mem_singleton] at he
        exact hspec.settled (.inr (congrArg Prod.snd he))
    · intro c hc i hi
      rw [hsame, getElem?_append_if] at hi
      rw [hspec.config]
      rcases hmem c hc with hc | rfl
      · rcases hi with hi | ⟨-, -, heq⟩
        · exact h.path c hc i hi
        · exact absurd heq.symm (hne c hc)
      · rcases hi with hi | ⟨-, rfl, -⟩
        · exact absurd (mem_of_getElem? hi) (hfresh _)
        · show (t.queues crash.queue).getOutput.1 = _
          rw [getOutput, h.next]
          rfl
    · intro c hc hcne
      simp only [hsame, getElem?_append_if]
      rcases hmem c hc with hc | rfl
      · obtain ⟨i, hi⟩ := h.named c hc hcne
        exact ⟨i, .inl hi⟩
      · exact ⟨(t.names crash.queue).length, .inr ⟨rfl, rfl, rfl⟩⟩

/-! ### Every run -/

/-- Only the requests in a queue change. -/
theorem Named.requeue (h : Named start t) (kind : QueueKind) {q : CrashQueue}
    (hnext : q.nextArtifact = (t.queues kind).nextArtifact)
    (hconfig : q.config = (t.queues kind).config)
    (hqueued : ∀ crash ∈ q.queuedRequests, crash.crashPath = []) :
    Named start (t.setQueue kind q) := by
  refine h.of_same ?_ rfl (fun _ => .inl) (fun _ hid => hid) h.waiting ?_
  · exact (forall_update_iff t.queues fun k q =>
      q.nextArtifact = (t.queues k).nextArtifact ∧ q.config = (t.queues k).config).mpr
      ⟨⟨hnext, hconfig⟩, fun _ _ => ⟨rfl, rfl⟩⟩
  · exact (forall_update_iff t.queues fun _ q =>
      ∀ crash ∈ q.queuedRequests, crash.crashPath = []).mpr ⟨hqueued, fun k _ => h.queued k⟩

theorem Named.dequeueLoop (kind : QueueKind) (n : Nat) (env : Nat → Attempt) (h : Named start t)
    (hinv : Inv [] t) : Named start (dequeueLoop kind n env t) := by
  induction n generalizing t env with
  | zero => exact h
  | succ n ih =>
    rw [Tombstoned.dequeueLoop]
    cases hqueue : (t.queues kind).queuedRequests with
    | nil => exact h
    | cons next rest =>
      simp only
      split
      case isTrue hroom =>
          have hnext : next ∈ (t.queues kind).queuedRequests := by
            rw [hqueue]
            exact mem_cons_self
          have htake := hinv.take hqueue (q := { t.queues kind with queuedRequests := rest })
            ⟨rfl, rfl, rfl⟩
          have hnamed := h.requeue kind (q := { t.queues kind with queuedRequests := rest })
            rfl rfl fun c hc => h.queued kind c (by
              rw [hqueue]
              exact mem_cons_of_mem _ hc)
          refine ih _ (hnamed.performRequest htake (h.queued kind next hnext) (env 0))
            (htake.performRequest ?_ (env 0))
          rw [hinv.kinds kind next hnext, setQueue_self]
          exact hroom
      case isFalse => exact h

/-- One event keeps the names. -/
theorem Named.step (h : Named start t) (hinv : Inv [] t) (hfull : ∀ kind, t.Full kind)
    {event : Event} (hstep : t.step event = some t') : Named start t' := by
  cases event with
  | accept =>
    cases hstep
    exact h.of_same (fun _ => ⟨rfl, rfl⟩) rfl (fun _ => .inl) (fun _ hid => hid)
      (forall_mem_append.mpr ⟨h.waiting, forall_mem_singleton.mpr rfl⟩) h.queued
  | request id input attempt =>
    obtain ⟨crash, hfind, rfl⟩ := map_eq_some_iff.mp hstep
    have hmem := mem_of_find?_eq_some hfind
    have hwaiting : ∀ c ∈ t.requested.erase crash, c.crashPath = [] :=
      fun c hc => h.waiting c (mem_of_mem_erase hc)
    rw [crashRequestCb]
    cases hread : readRequest crash input with
    | none =>
      refine h.of_same (fun _ => ⟨rfl, rfl⟩) rfl (fun _ => .inl) ?_ hwaiting h.queued
      intro id' hid
      show 0 < countIn t.running id' + (t.deleted ++ [crash.id]).count id'
      rw [count_append]
      omega
    | some crash' =>
      obtain ⟨hid, hpath⟩ : crash'.id = crash.id ∧ crash'.crashPath = [] := by
        obtain ⟨type, pid, rfl⟩ := readRequest_eq hread
        exact ⟨rfl, h.waiting crash hmem⟩
      have harrived : Named start { t with
          requested := t.requested.erase crash
          arrived := t.arrived ++ [(crash'.queue, crash'.id)] } :=
        h.of_same (fun _ => ⟨rfl, rfl⟩) rfl (fun _ => .inl) (fun _ hid => hid) hwaiting
          h.queued
      simp only [maybeEnqueueCrash]
      by_cases hroom : (t.queues crash'.queue).numConcurrentDumps
          = (t.queues crash'.queue).config.maxConcurrentDumps
      · simp only [hroom]
        exact harrived.requeue crash'.queue rfl rfl
          (forall_mem_append.mpr ⟨h.queued _, forall_mem_singleton.mpr hpath⟩)
      · simp only [hroom]
        have hnone : (t.queues crash'.queue).queuedRequests = [] := by
          by_contra hne
          exact hroom (hfull crash'.queue hne)
        exact harrived.performRequest (hinv.grasp hmem hid hnone) hpath attempt
  | completed id env =>
    obtain ⟨crash, hfind, rfl⟩ := map_eq_some_iff.mp hstep
    have hmem := mem_of_find?_eq_some hfind
    refine Named.dequeueLoop crash.queue _ env ?_ (hinv.complete hmem)
    have hdeleted : Named start (delete { t with running := t.running.erase crash } crash) := by
      refine h.of_same (fun _ => ⟨rfl, rfl⟩) rfl (fun _ hc => .inl (mem_of_mem_erase hc)) ?_
        h.waiting h.queued
      intro id' hid
      rw [countIn_erase hmem] at hid
      show 0 < countIn (t.running.erase crash) id' + (t.deleted ++ [crash.id]).count id'
      rw [count_append, count_singleton]
      simp only [beq_iff_eq]
      omega
    refine hdeleted.requeue crash.queue ?_ ?_ ?_
    · rw [onCrashCompleted, delete]
    · rw [onCrashCompleted, delete]
    · rw [onCrashCompleted]
      exact h.queued crash.queue

theorem oldestOf_lt (stat : Nat → Stat) {n : Nat} {files : List Nat}
    (hfiles : ∀ i ∈ files, i < n) {oldest : Nat} (holdest : oldest < n) (time : Int) :
    oldestOf stat files oldest time < n := by
  induction files generalizing oldest time with
  | nil => exact holdest
  | cons i rest ih =>
    have hrest : ∀ j ∈ rest, j < n := fun j hj => hfiles j (mem_cons_of_mem _ hj)
    have hi := hfiles i mem_cons_self
    rw [oldestOf]
    split
    · exact hi
    · exact ih hrest holdest time
    · split
      · exact ih hrest hi _
      · exact ih hrest holdest time

/-- Before the first event. -/
theorem named_new (config : QueueKind → QueueConfig) (stat : QueueKind → Nat → Stat) :
    Named (fun kind => findOldestArtifact (stat kind) (config kind).maxArtifacts)
      (new config stat) where
  next kind := by
    have hcheck := (config kind).check
    have hlt : findOldestArtifact (stat kind) (config kind).maxArtifacts
        < (config kind).maxArtifacts :=
      oldestOf_lt (stat kind) (fun i => mem_range.mp) (by omega) _
    exact (Nat.mod_eq_of_lt hlt).symm
  settled _ he := by cases he
  path _ hcrash := by cases hcrash
  named _ hcrash := by cases hcrash
  waiting _ hcrash := by cases hcrash
  queued _ _ hcrash := by cases hcrash

theorem run_named {config : QueueKind → QueueConfig} {stat : QueueKind → Nat → Stat}
    {events : List Event} (hrun : run Tombstoned.step (new config stat) events = some t)
 : Named (fun kind => findOldestArtifact (stat kind) (config kind).maxArtifacts) t := by
  have hinv := run_invariant
    (I := fun t => (Inv [] t ∧ ∀ kind, t.Full kind) ∧ Named _ t)
    (fun _ _ _ h hstep => ⟨Inv.step h.1 hstep, h.2.step h.1.1 h.1.2 hstep⟩)
    ⟨⟨inv_new config stat, fun _ => absurd rfl⟩, named_new config stat⟩ hrun
  exact hinv.2

/-- In every state between two events: no two dumps of a queue that are in progress were handed
the same file if and only if no two of them were named by calls of `get_output` that are a
multiple of `max_artifacts_` apart. -/
theorem noSharing_iff (config : QueueKind → QueueConfig)
    (stat : QueueKind → Nat → Stat) (events : List Event) (t : Tombstoned)
    (hrun : run Tombstoned.step (new config stat) events = some t)
    (kind : QueueKind) : t.NoSharing kind ↔ t.Spread kind :=
  (run_named hrun).noSharing kind

/-- Two traces at one time. -/
def twoTraces : List Event :=
  [.accept, .accept, .request 0 (goodRequest 2 100) goodAttempt,
    .request 1 (goodRequest 2 101) goodAttempt]

theorem noSharing_iff_twoTraces :
    ∃ t, run Tombstoned.step (new defaultConfig noFiles) twoTraces = some t ∧
      (t.NoSharing .anrs ↔ t.Spread .anrs) := by
  have hsome : (run Tombstoned.step (new defaultConfig noFiles)
      twoTraces).isSome = true := by decide +kernel
  obtain ⟨t, hrun⟩ := isSome_iff_exists.mp hsome
  exact ⟨t, hrun, noSharing_iff defaultConfig noFiles twoTraces t hrun .anrs⟩

/-- A trace that is requested, written and completed at once. -/
def quickTrace (id : Nat) : List Event :=
  [.accept, .request id (goodRequest 2 100) goodAttempt, .completed id fun _ => goodAttempt]

/-- A trace that takes so long that 63 others are written meanwhile, and one more. -/
def slowTrace : List Event :=
  [.accept, .request 0 (goodRequest 2 100) goodAttempt]
    ++ (List.range 63).flatMap (fun i => quickTrace (i + 1))
    ++ [.accept, .request 64 (goodRequest 2 101) goodAttempt]

/-- The first and the last trace are in progress at one time, and both write to the first
file. -/
theorem slowTrace_shared :
    ∃ t, run Tombstoned.step (new defaultConfig noFiles) slowTrace = some t ∧
      ¬ t.NoSharing .anrs := by
  have hrun : (run Tombstoned.step (new defaultConfig noFiles) slowTrace).map
      (fun t => (t.inProgress .anrs).map fun c => (c.id, c.crashPath))
      = some [(0, "/data/anr/trace_00".toList), (64, "/data/anr/trace_00".toList)] := by
    decide +kernel
  obtain ⟨t, hrun, hprogress⟩ := map_eq_some_iff.mp hrun
  refine ⟨t, hrun, ?_⟩
  intro hno
  have hfirst : (0, "/data/anr/trace_00".toList)
      ∈ (t.inProgress .anrs).map fun c => (c.id, c.crashPath) := by
    rw [hprogress]
    exact mem_cons_self
  have hlast : (64, "/data/anr/trace_00".toList)
      ∈ (t.inProgress .anrs).map fun c => (c.id, c.crashPath) := by
    rw [hprogress]
    exact mem_cons_of_mem _ mem_cons_self
  obtain ⟨a, ha, haeq⟩ := mem_map.mp hfirst
  obtain ⟨b, hb, hbeq⟩ := mem_map.mp hlast
  rw [Prod.mk.injEq] at haeq hbeq
  refine hno a ha b hb (by rw [haeq.1, hbeq.1]; decide) ?_ ?_ (haeq.2.trans hbeq.2.symm)
  · rw [haeq.2]
    decide
  · rw [hbeq.2]
    decide

end Tombstoned

end AndroidCore.Debuggerd
