import AndroidCore.Debuggerd.Tombstoned
import AndroidCore.Lib.Transitions

/-!
# `AndroidCore.Proofs.Debuggerd.Tombstoned`: the dumps are bounded and none is stranded

`performRequest_spec` says once what `perform_request` does: the dump starts and is counted, or
the crash is deleted. Between two calls of it the daemon may hold a crash in its hand, taken
from a queue or from its event, and a queue may have room although requests wait in it. `Inv`
is what holds nevertheless, with that crash as a parameter. `Full` is what the dequeue loop
restores: where requests wait, there is no room.

`run_sound` is the result for every sequence of events.
-/

namespace AndroidCore.Debuggerd

open Lib List CrashQueue Function Option

namespace Tombstoned

/-! ### The states -/

/-- The crashes of a list with a number. -/
def countIn (crashes : List Crash) (id : Nat) : Nat := (crashes.map Crash.id).count id

/-- The queued crashes with a number. -/
def countQueued (queues : QueueKind → CrashQueue) (id : Nat) : Nat :=
  countIn (queues .tombstones).queuedRequests id + countIn (queues .anrs).queuedRequests id

/-- The dumps of a queue that are in progress. -/
def inProgress (t : Tombstoned) (kind : QueueKind) : List Crash :=
  t.running.filter fun crash => crash.queue = kind

/-- The crashes of a queue whose requests were accepted, in the order of their arrival. -/
def arrivals (t : Tombstoned) (kind : QueueKind) : List Nat :=
  (t.arrived.filter fun e => e.1 = kind).map Prod.snd

/-- The crashes of a queue that were started, or failed while they were started. -/
def attempts (t : Tombstoned) (kind : QueueKind) : List Nat :=
  (t.attempted.filter fun e => e.1 = kind).map Prod.snd

/-- What holds between two events. -/
structure Sound (t : Tombstoned) : Prop where
  /-- The counter of a queue is the number of its dumps in progress. -/
  counted : ∀ kind, (t.queues kind).numConcurrentDumps = (t.inProgress kind).length
  bounded : ∀ kind, (t.queues kind).numConcurrentDumps
    ≤ (t.queues kind).config.maxConcurrentDumps
  /-- Requests wait only when there is no room. -/
  full : ∀ kind, (t.queues kind).queuedRequests ≠ [] →
    (t.queues kind).numConcurrentDumps = (t.queues kind).config.maxConcurrentDumps
  /-- The crashes are started in the order of their arrival, and the others are queued. -/
  fifo : ∀ kind, t.arrivals kind
    = t.attempts kind ++ (t.queues kind).queuedRequests.map Crash.id
  /-- An accepted crash is queued, in progress or deleted, and that once. -/
  placed : ∀ e ∈ t.arrived,
    countQueued t.queues e.2 + countIn t.running e.2 + t.deleted.count e.2 = 1

/-- What holds while the daemon has the crashes of `hand` in its hand. -/
structure Inv (hand : List Crash) (t : Tombstoned) : Prop where
  counted : ∀ kind, (t.queues kind).numConcurrentDumps = (t.inProgress kind).length
  bounded : ∀ kind, (t.queues kind).numConcurrentDumps
    ≤ (t.queues kind).config.maxConcurrentDumps
  kinds : ∀ kind, ∀ crash ∈ (t.queues kind).queuedRequests, crash.queue = kind
  fifo : ∀ kind, t.arrivals kind = t.attempts kind ++
    (hand.filter (fun crash => crash.queue = kind) ++ (t.queues kind).queuedRequests).map Crash.id
  places : ∀ id, countIn t.requested id + countIn hand id + countQueued t.queues id +
    countIn t.running id + t.deleted.count id = if id < t.accepted then 1 else 0
  arrived : ∀ e ∈ t.arrived, e.2 < t.accepted ∧ countIn t.requested e.2 = 0

/-- A queue with requests has no room. -/
def Full (t : Tombstoned) (kind : QueueKind) : Prop :=
  (t.queues kind).queuedRequests ≠ [] →
    (t.queues kind).numConcurrentDumps = (t.queues kind).config.maxConcurrentDumps

variable {t : Tombstoned}

theorem Inv.sound (h : Inv [] t) (hfull : ∀ kind, t.Full kind) : Sound t where
  counted := h.counted
  bounded := h.bounded
  full := hfull
  fifo := h.fifo
  placed e he := by
    obtain ⟨hlt, hrequested⟩ := h.arrived e he
    have hplaces := h.places e.2
    rw [if_pos hlt, hrequested] at hplaces
    simpa [countIn] using hplaces

/-! ### Counting -/

theorem countIn_append (l l' : List Crash) (id : Nat) :
    countIn (l ++ l') id = countIn l id + countIn l' id := by
  simp [countIn]

theorem countIn_singleton (crash : Crash) (id : Nat) :
    countIn [crash] id = if crash.id = id then 1 else 0 := by
  simp [countIn, count_cons]

variable {crash : Crash}

theorem countIn_erase {l : List Crash} (h : crash ∈ l) (id : Nat) :
    countIn l id = countIn (l.erase crash) id + if crash.id = id then 1 else 0 := by
  have hperm := ((perm_cons_erase h).map Crash.id).count_eq id
  rw [countIn, hperm, map_cons, count_cons]
  simp [countIn]

theorem countQueued_update (queues : QueueKind → CrashQueue) (kind : QueueKind) (q : CrashQueue)
    (id : Nat) :
    countQueued (update queues kind q) id + countIn (queues kind).queuedRequests id
      = countQueued queues id + countIn q.queuedRequests id := by
  cases kind <;>
    simp only [countQueued, update_self, ne_eq, reduceCtorEq, not_false_eq_true, update_of_ne] <;>
    omega

/-- The queues hold the same requests. -/
theorem countQueued_congr {queues queues' : QueueKind → CrashQueue}
    (h : ∀ kind, (queues' kind).queuedRequests = (queues kind).queuedRequests) (id : Nat) :
    countQueued queues' id = countQueued queues id := by
  rw [countQueued, h, h, countQueued]

theorem inProgress_erase (h : crash ∈ t.running) (kind : QueueKind) :
    (t.inProgress kind).length = ((t.running.erase crash).filter fun c => c.queue = kind).length
      + if crash.queue = kind then 1 else 0 := by
  have hperm := ((perm_cons_erase h).filter fun c => decide (c.queue = kind)).length_eq
  rw [inProgress, hperm]
  by_cases hkind : crash.queue = kind
  · simp [hkind]
  · simp [hkind]

/-- A queue whose configuration and requests stay as they are. -/
theorem update_same (queues : QueueKind → CrashQueue) (kind : QueueKind) (q : CrashQueue)
    (hconfig : q.config = (queues kind).config)
    (hqueued : q.queuedRequests = (queues kind).queuedRequests) (k : QueueKind) :
    (update queues kind q k).config = (queues k).config ∧
      (update queues kind q k).queuedRequests = (queues k).queuedRequests :=
  (forall_update_iff queues fun k q => q.config = (queues k).config ∧
    q.queuedRequests = (queues k).queuedRequests).mpr
    ⟨⟨hconfig, hqueued⟩, fun _ _ => ⟨rfl, rfl⟩⟩ k

/-! ### `perform_request` -/

/-- What `perform_request` does to a crash. -/
structure Performed (t : Tombstoned) (crash : Crash) (t' : Tombstoned) : Prop where
  config : ∀ kind, (t'.queues kind).config = (t.queues kind).config
  queued : ∀ kind, (t'.queues kind).queuedRequests = (t.queues kind).queuedRequests
  accepted : t'.accepted = t.accepted
  requested : t'.requested = t.requested
  arrived : t'.arrived = t.arrived
  attempted : t'.attempted = t.attempted ++ [(crash.queue, crash.id)]
  /-- It starts the dump, or it deletes the crash. -/
  outcome :
    ((∃ path, t'.running = t.running ++ [{ crash with crashPath := path }]) ∧
      t'.deleted = t.deleted ∧
      ∀ kind, (t'.queues kind).numConcurrentDumps = if kind = crash.queue then
        ((t.queues kind).numConcurrentDumps + 1) % sizeSpace
        else (t.queues kind).numConcurrentDumps) ∨
    (t'.running = t.running ∧ t'.deleted = t.deleted ++ [crash.id] ∧
      ∀ kind, (t'.queues kind).numConcurrentDumps = (t.queues kind).numConcurrentDumps)

/-- The output is found without a change to the counters and the requests. -/
theorem findOutput_spec (t : Tombstoned) (attempt : Attempt) (crash : Crash) :
    ∃ path queues outputs, t.findOutput attempt crash
        = ({ crash with crashPath := path }, { t with queues := queues, outputs := outputs }) ∧
      ∀ kind, (queues kind).config = (t.queues kind).config ∧
        (queues kind).queuedRequests = (t.queues kind).queuedRequests ∧
        (queues kind).numConcurrentDumps = (t.queues kind).numConcurrentDumps := by
  rw [findOutput]
  split
  · exact ⟨crash.crashPath, t.queues, t.outputs, rfl, fun kind => ⟨rfl, rfl, rfl⟩⟩
  · exact ⟨_, _, _, rfl, (forall_update_iff _ fun kind (q : CrashQueue) =>
      q.config = (t.queues kind).config ∧
        q.queuedRequests = (t.queues kind).queuedRequests ∧
        q.numConcurrentDumps = (t.queues kind).numConcurrentDumps).mpr
      ⟨⟨rfl, rfl, rfl⟩, fun kind _ => ⟨rfl, rfl, rfl⟩⟩⟩

theorem performRequest_spec (t : Tombstoned) (attempt : Attempt) (crash : Crash) :
    Performed t crash (t.performRequest attempt crash) := by
  obtain ⟨path, queues, outputs, hfind, hqueues⟩ := findOutput_spec
    { t with attempted := t.attempted ++ [(crash.queue, crash.id)] } attempt crash
  rw [performRequest, hfind]
  have hsame : { crash with crashPath := path }.queue = crash.queue := rfl
  by_cases hsent : attempt.sent = .complete
  · simp only [hsent, hsame]
    have hupdate := update_same queues crash.queue (queues crash.queue).onCrashStarted rfl rfl
    refine ⟨fun kind => (hupdate kind).1.trans (hqueues kind).1,
      fun kind => (hupdate kind).2.trans (hqueues kind).2.1, rfl, rfl, rfl, rfl,
      .inl ⟨⟨path, rfl⟩, rfl, ?_⟩⟩
    intro kind
    show (update queues crash.queue _ kind).numConcurrentDumps = _
    by_cases hkind : kind = crash.queue
    · subst hkind
      rw [update_self, if_pos rfl, onCrashStarted, (hqueues _).2.2]
    · rw [update_of_ne hkind, if_neg hkind, (hqueues kind).2.2]
  · simp only [hsent]
    exact ⟨fun kind => (hqueues kind).1, fun kind => (hqueues kind).2.1, rfl, rfl, rfl, rfl,
      .inr ⟨rfl, rfl, fun kind => (hqueues kind).2.2⟩⟩

/-- The crash in the hand is started or deleted. -/
theorem Inv.performRequest (h : Inv [crash] t) (hroom : (t.queues crash.queue).numConcurrentDumps
      < (t.queues crash.queue).config.maxConcurrentDumps) (attempt : Attempt) :
    Inv [] (t.performRequest attempt crash) := by
  have hspec := performRequest_spec t attempt crash
  generalize t.performRequest attempt crash = t' at hspec ⊢
  have hfifo : ∀ kind, t'.arrivals kind = t'.attempts kind ++
      (t'.queues kind).queuedRequests.map Crash.id := by
    intro kind
    have hold := h.fifo kind
    rw [arrivals, hspec.arrived, ← arrivals, hold, attempts, attempts, hspec.attempted,
      hspec.queued]
    by_cases hkind : crash.queue = kind
    · simp [hkind]
    · simp [hkind]
  have hkinds : ∀ kind, ∀ c ∈ (t'.queues kind).queuedRequests, c.queue = kind := by
    intro kind c hc
    rw [hspec.queued] at hc
    exact h.kinds kind c hc
  have harrived : ∀ e ∈ t'.arrived, e.2 < t'.accepted ∧ countIn t'.requested e.2 = 0 := by
    intro e he
    rw [hspec.arrived] at he
    rw [hspec.accepted, hspec.requested]
    exact h.arrived e he
  rcases hspec.outcome with ⟨⟨path, hrunning⟩, hdeleted, hnum⟩ | ⟨hrunning, hdeleted, hnum⟩
  · have hfits := (t.queues crash.queue).config.lt_sizeSpace
    have hcheck := (t.queues crash.queue).config.check
    have hcounted : ∀ kind, (t'.queues kind).numConcurrentDumps
        = (t.queues kind).numConcurrentDumps + if kind = crash.queue then 1 else 0 := by
      intro kind
      rw [hnum]
      by_cases hkind : kind = crash.queue
      · subst hkind
        rw [if_pos rfl, if_pos rfl, Nat.mod_eq_of_lt (by omega)]
      · rw [if_neg hkind, if_neg hkind, Nat.add_zero]
    refine ⟨?_, ?_, hkinds, by simpa using hfifo, ?_, harrived⟩
    · intro kind
      have hsame : { crash with crashPath := path }.queue = crash.queue := rfl
      rw [hcounted, h.counted, inProgress, inProgress, hrunning, filter_append]
      by_cases hkind : kind = crash.queue
      · simp [hkind, hsame]
      · simp [hsame, hkind, Ne.symm hkind]
    · intro kind
      rw [hcounted, hspec.config]
      by_cases hkind : kind = crash.queue
      · subst hkind
        rw [if_pos rfl]
        omega
      · rw [if_neg hkind]
        exact h.bounded kind
    · intro id
      have hold := h.places id
      rw [hspec.requested, countQueued_congr hspec.queued, hrunning, hdeleted, hspec.accepted,
        countIn_append, countIn_singleton]
      rw [countIn_singleton] at hold
      simp only [countIn, map_nil, count_nil] at hold ⊢
      omega
  · refine ⟨?_, ?_, hkinds, by simpa using hfifo, ?_, harrived⟩
    · intro kind
      rw [hnum, h.counted, inProgress, inProgress, hrunning]
    · intro kind
      rw [hnum, hspec.config]
      exact h.bounded kind
    · intro id
      have hold := h.places id
      rw [hspec.requested, countQueued_congr hspec.queued, hrunning, hdeleted, hspec.accepted,
        count_append, count_singleton]
      rw [countIn_singleton] at hold
      simp only [countIn, map_nil, count_nil, beq_iff_eq] at hold ⊢
      omega

/-! ### `maybe_dequeue_crashes` -/

@[simp] theorem setQueue_self (t : Tombstoned) (kind : QueueKind) (q : CrashQueue) :
    (t.setQueue kind q).queues kind = q := update_self ..

variable {kind : QueueKind}

@[simp] theorem setQueue_of_ne (t : Tombstoned) {other : QueueKind} (q : CrashQueue)
    (h : other ≠ kind) : (t.setQueue kind q).queues other = t.queues other :=
  update_of_ne h ..

/-- A queue changes only in the requests that wait in it. -/
structure Requeued (q q' : CrashQueue) (requests : List Crash) : Prop where
  config : q'.config = q.config
  num : q'.numConcurrentDumps = q.numConcurrentDumps
  queued : q'.queuedRequests = requests

variable {q : CrashQueue}

theorem Requeued.counted {hand : List Crash} (h : Inv hand t) {requests : List Crash}
    (hq : Requeued (t.queues kind) q requests) (k : QueueKind) :
    ((t.setQueue kind q).queues k).numConcurrentDumps = (t.inProgress k).length ∧
      ((t.setQueue kind q).queues k).numConcurrentDumps
        ≤ ((t.setQueue kind q).queues k).config.maxConcurrentDumps := by
  refine (forall_update_iff t.queues fun k q =>
    q.numConcurrentDumps = (t.inProgress k).length ∧
      q.numConcurrentDumps ≤ q.config.maxConcurrentDumps).mpr
    ⟨?_, fun k _ => ⟨h.counted k, h.bounded k⟩⟩ k
  rw [hq.num, hq.config]
  exact ⟨h.counted kind, h.bounded kind⟩

theorem Requeued.kinds {hand : List Crash} (h : Inv hand t) {requests : List Crash}
    (hq : Requeued (t.queues kind) q requests) (hrequests : ∀ crash ∈ requests, crash.queue = kind)
    : ∀ k, ∀ crash ∈ ((t.setQueue kind q).queues k).queuedRequests, crash.queue = k :=
  (forall_update_iff t.queues fun k q =>
    ∀ crash ∈ q.queuedRequests, crash.queue = k).mpr
    ⟨hq.queued ▸ hrequests, fun k _ => h.kinds k⟩

/-- The first request of a queue is taken into the hand. -/
theorem Inv.take (h : Inv [] t) {next : Crash} {rest : List Crash}
    (hqueue : (t.queues kind).queuedRequests = next :: rest)
    (hq : Requeued (t.queues kind) q rest) :
    Inv [next] (t.setQueue kind q) := by
  obtain ⟨hnext, hrest⟩ := forall_mem_cons.mp (hqueue ▸ h.kinds kind)
  refine ⟨fun k => (hq.counted h k).1, fun k => (hq.counted h k).2, hq.kinds h hrest, ?_, ?_,
    h.arrived⟩
  · intro k
    show t.arrivals k = t.attempts k ++ _
    rw [h.fifo k]
    by_cases hk : k = kind
    · subst hk
      simp [hnext, hqueue, hq.queued]
    · rw [setQueue_of_ne t _ hk]
      simp [hnext, Ne.symm hk]
  · intro id
    have hold := h.places id
    have hmove := countQueued_update t.queues kind q id
    have hsplit : countIn (next :: rest) id = countIn [next] id + countIn rest id :=
      countIn_append [next] rest id
    have hnil : countIn [] id = 0 := rfl
    rw [hqueue, hq.queued] at hmove
    show countIn t.requested id + countIn [next] id + countQueued (update t.queues kind q)
      id + countIn t.running id + t.deleted.count id = if id < t.accepted then 1 else 0
    omega

/-- The loop leaves no request where there is room, and the other queue as it is. -/
theorem Inv.dequeueLoop (kind : QueueKind) (n : Nat) (env : Nat → Attempt) (h : Inv [] t)
    (hn : (t.queues kind).queuedRequests.length = n) :
    Inv [] (dequeueLoop kind n env t) ∧ (dequeueLoop kind n env t).Full kind ∧
      ∀ k, k ≠ kind → t.Full k → (dequeueLoop kind n env t).Full k := by
  induction n generalizing t env with
  | zero =>
    refine ⟨h, ?_, fun _ _ hk => hk⟩
    intro hne
    exact absurd (length_eq_zero_iff.mp hn) hne
  | succ n ih =>
    rw [Tombstoned.dequeueLoop]
    cases hqueue : (t.queues kind).queuedRequests with
    | nil =>
      rw [hqueue] at hn
      cases hn
    | cons next rest =>
      simp only
      split
      case isTrue hroom =>
          have hq : Requeued (t.queues kind) { t.queues kind with queuedRequests := rest }
              rest := ⟨rfl, rfl, rfl⟩
          have hnext : next.queue = kind :=
            h.kinds kind next (by rw [hqueue]; exact mem_cons_self)
          have htake := h.take hqueue hq
          generalize { t.queues kind with queuedRequests := rest } = q
            at hq htake ⊢
          have hspec := performRequest_spec (t.setQueue kind q) (env 0) next
          have hperform := htake.performRequest
            (by rw [hnext, setQueue_self, hq.num, hq.config]; exact hroom) (env 0)
          have hlength : (((t.setQueue kind q).performRequest (env 0) next).queues
              kind).queuedRequests.length = n := by
            rw [hspec.queued, setQueue_self, hq.queued]
            rw [hqueue, length_cons] at hn
            omega
          obtain ⟨hinv, hfull, hothers⟩ := ih (fun i => env (i + 1)) hperform hlength
          refine ⟨hinv, hfull, ?_⟩
          intro k hk hfullk
          refine hothers k hk ?_
          -- the request that was started is one of the other queue
          intro hne
          rw [hspec.queued, setQueue_of_ne t _ hk] at hne
          have hnum : (((t.setQueue kind q).performRequest (env 0) next).queues
              k).numConcurrentDumps = (t.queues k).numConcurrentDumps := by
            rcases hspec.outcome with ⟨-, -, hnum⟩ | ⟨-, -, hnum⟩
            · rw [hnum, if_neg (by rwa [hnext]), setQueue_of_ne t _ hk]
            · rw [hnum, setQueue_of_ne t _ hk]
          rw [hnum, hspec.config, setQueue_of_ne t _ hk]
          exact hfullk hne
      case isFalse hroom =>
          refine ⟨h, ?_, fun _ _ hk => hk⟩
          intro _
          exact Nat.le_antisymm (h.bounded kind) (Nat.le_of_not_lt hroom)

/-! ### The callbacks -/

/-- `crash_accept_cb`. -/
theorem Inv.accept (h : Inv [] t) : Inv [] t.crashAcceptCb where
  counted := h.counted
  bounded := h.bounded
  kinds := h.kinds
  fifo := h.fifo
  places id := by
    have hold := h.places id
    have hnew : countIn (t.requested ++ [Crash.new t.accepted]) id
        = countIn t.requested id + if t.accepted = id then 1 else 0 := by
      rw [countIn_append, countIn_singleton]
      rfl
    show countIn (t.requested ++ [Crash.new t.accepted]) id + countIn [] id
      + countQueued t.queues id + countIn t.running id + t.deleted.count id
      = if id < t.accepted + 1 then 1 else 0
    rw [hnew]
    split at hold <;> split <;> split <;> omega
  arrived e he := by
    obtain ⟨hlt, hnone⟩ := h.arrived e he
    refine ⟨Nat.lt_succ_of_lt hlt, ?_⟩
    show countIn (t.requested ++ [Crash.new t.accepted]) e.2 = 0
    rw [countIn_append, countIn_singleton, hnone,
      if_neg (show (Crash.new t.accepted).id ≠ e.2 from fun heq => absurd heq (by
        show t.accepted ≠ e.2
        omega))]

section Request

variable {t : Tombstoned} {crash crash' : Crash}

/-- The crash with the data of its request. -/
theorem readRequest_eq {input : RequestInput} (h : readRequest crash input = some crash') :
    ∃ type pid, crash' = { crash with crashType := type, crashPid := pid } := by
  simp only [readRequest, bind_eq_bind, bind_eq_some_iff, Option.pure_def, some.injEq] at h
  obtain ⟨-, -, -, -, request, -, -, -, type, -, pid, -, rfl⟩ := h
  exact ⟨type, pid, rfl⟩

variable (h : Inv [] t) (hmem : crash ∈ t.requested)
include h hmem

/-- A crash leaves its event, and it is nowhere else. -/
theorem Inv.requested_erase (id : Nat) :
    countIn (t.requested.erase crash) id + (if crash.id = id then 1 else 0)
        + countQueued t.queues id + countIn t.running id + t.deleted.count id
      = if id < t.accepted then 1 else 0 := by
  have hold := h.places id
  rw [countIn_erase hmem] at hold
  exact hold

theorem Inv.erase_arrived :
    ∀ e ∈ t.arrived, e.2 < t.accepted ∧ countIn (t.requested.erase crash) e.2 = 0 := by
  intro e he
  obtain ⟨hlt, hnone⟩ := h.arrived e he
  rw [countIn_erase hmem] at hnone
  exact ⟨hlt, by omega⟩

/-- A request that is not accepted. -/
theorem Inv.refuse : Inv [] (delete { t with requested := t.requested.erase crash } crash) where
  counted := h.counted
  bounded := h.bounded
  kinds := h.kinds
  fifo := h.fifo
  places id := by
    have hold := h.requested_erase hmem id
    show countIn (t.requested.erase crash) id + countIn [] id + countQueued t.queues id
      + countIn t.running id + (t.deleted ++ [crash.id]).count id = _
    have hnil : countIn [] id = 0 := rfl
    rw [count_append, count_singleton]
    simp only [beq_iff_eq]
    exact (by omega : _ = _).trans hold
  arrived := h.erase_arrived hmem

section
variable (hid : crash'.id = crash.id)
include hid

/-- The request is accepted: the crash is in the hand. -/
theorem Inv.arrive :
    ∀ e ∈ t.arrived ++ [(crash'.queue, crash'.id)],
      e.2 < t.accepted ∧ countIn (t.requested.erase crash) e.2 = 0 := by
  refine forall_mem_append.mpr ⟨h.erase_arrived hmem, forall_mem_singleton.mpr ?_⟩
  have hold := h.requested_erase hmem crash.id
  rw [if_pos rfl] at hold
  show crash'.id < t.accepted ∧ countIn (t.requested.erase crash) crash'.id = 0
  rw [hid]
  split at hold
  case isTrue hlt => exact ⟨hlt, by omega⟩
  case isFalse => omega

/-- The crash is queued. -/
theorem Inv.enqueue
    (hq : Requeued (t.queues crash'.queue) q ((t.queues crash'.queue).queuedRequests ++ [crash'])) :
    Inv [] (setQueue { t with
      requested := t.requested.erase crash
      arrived := t.arrived ++ [(crash'.queue, crash'.id)] } crash'.queue q) := by
  refine ⟨fun k => (hq.counted h k).1, fun k => (hq.counted h k).2, hq.kinds (t := t) h ?_, ?_, ?_,
    h.arrive hmem hid⟩
  · exact forall_mem_append.mpr ⟨h.kinds _, forall_mem_singleton.mpr rfl⟩
  · intro k
    have hold := h.fifo k
    rw [arrivals] at hold
    show ((t.arrived ++ [(crash'.queue, crash'.id)]).filter fun e => e.1 = k).map Prod.snd
      = t.attempts k ++ _
    rw [filter_append, map_append, hold]
    by_cases hk : k = crash'.queue
    · subst hk
      rw [setQueue_self, hq.queued]
      simp
    · rw [setQueue_of_ne _ _ hk]
      simp [Ne.symm hk]
  · intro id
    have hold := h.requested_erase hmem id
    have hmove := countQueued_update t.queues crash'.queue q id
    have hnil : countIn [] id = 0 := rfl
    rw [hq.queued, countIn_append, countIn_singleton, hid] at hmove
    show countIn (t.requested.erase crash) id + countIn [] id
      + countQueued (update t.queues crash'.queue q) id + countIn t.running id
      + t.deleted.count id = if id < t.accepted then 1 else 0
    omega

/-- The crash is in the hand: there is room, and no request waits. -/
theorem Inv.grasp (hnone : (t.queues crash'.queue).queuedRequests = []) :
    Inv [crash'] { t with
      requested := t.requested.erase crash
      arrived := t.arrived ++ [(crash'.queue, crash'.id)] } := by
  refine ⟨h.counted, h.bounded, h.kinds, ?_, ?_, h.arrive hmem hid⟩
  · intro k
    have hold := h.fifo k
    rw [arrivals] at hold
    show ((t.arrived ++ [(crash'.queue, crash'.id)]).filter fun e => e.1 = k).map Prod.snd
      = t.attempts k ++ _
    rw [filter_append, map_append, hold]
    by_cases hk : k = crash'.queue
    · subst hk
      simp [hnone]
    · simp [Ne.symm hk]
  · intro id
    have hold := h.requested_erase hmem id
    show countIn (t.requested.erase crash) id + countIn [crash'] id + countQueued t.queues id
      + countIn t.running id + t.deleted.count id = if id < t.accepted then 1 else 0
    rw [countIn_singleton, hid]
    exact hold

end

/-- `crash_request_cb`. -/
theorem Inv.request (hfull : ∀ kind, t.Full kind) (input : RequestInput) (attempt : Attempt) :
    Inv [] (t.crashRequestCb crash input attempt) ∧
      ∀ kind, (t.crashRequestCb crash input attempt).Full kind := by
  rw [crashRequestCb]
  cases hread : readRequest crash input with
  | none => exact ⟨h.refuse hmem, hfull⟩
  | some crash' =>
    have hid : crash'.id = crash.id := by
      obtain ⟨type, pid, rfl⟩ := readRequest_eq hread
      rfl
    simp only [maybeEnqueueCrash]
    by_cases hroom : (t.queues crash'.queue).numConcurrentDumps
        = (t.queues crash'.queue).config.maxConcurrentDumps
    · simp only [hroom, ↓reduceIte]
      refine ⟨h.enqueue hmem hid ⟨rfl, hroom.symm, rfl⟩, ?_⟩
      intro k
      by_cases hk : k = crash'.queue
      · subst hk
        intro _
        rw [setQueue_self]
      · rw [Full, setQueue_of_ne _ _ hk]
        exact hfull k
    · simp only [hroom, ↓reduceIte]
      have hnone : (t.queues crash'.queue).queuedRequests = [] := by
        by_contra hne
        exact hroom (hfull crash'.queue hne)
      have hlt := Nat.lt_of_le_of_ne (h.bounded crash'.queue) hroom
      have hgrasp := h.grasp hmem hid hnone
      have hspec := performRequest_spec { t with
        requested := t.requested.erase crash
        arrived := t.arrived ++ [(crash'.queue, crash'.id)] } attempt crash'
      refine ⟨hgrasp.performRequest hlt attempt, ?_⟩
      intro k hne
      rw [hspec.queued] at hne
      have hk : k ≠ crash'.queue := fun hk => hne (hk ▸ hnone)
      rw [hspec.config]
      rcases hspec.outcome with ⟨-, -, hnum⟩ | ⟨-, -, hnum⟩
      · rw [hnum, if_neg hk]
        exact hfull k hne
      · rw [hnum]
        exact hfull k hne

end Request

section Completed

variable {t : Tombstoned} {crash : Crash} (h : Inv [] t) (hmem : crash ∈ t.running)
include h hmem

/-- The counter of a queue with a dump in progress goes down without wrapping. -/
theorem Inv.onCrashCompleted :
    (t.queues crash.queue).onCrashCompleted.numConcurrentDumps + 1
      = (t.queues crash.queue).numConcurrentDumps := by
  have hcounted := h.counted crash.queue
  rw [inProgress_erase hmem, if_pos rfl] at hcounted
  have hle := h.bounded crash.queue
  have hcheck := (t.queues crash.queue).config.check
  have hfits := (t.queues crash.queue).config.lt_sizeSpace
  rw [CrashQueue.onCrashCompleted]
  simp only
  generalize (t.queues crash.queue).numConcurrentDumps = n at hcounted hle ⊢
  generalize sizeSpace = m at hfits ⊢
  rw [show n + (m - 1) = n - 1 + m by omega, Nat.add_mod_right, Nat.mod_eq_of_lt (by omega)]
  omega

/-- The dump is over: the counter goes down, and the crash is deleted. -/
theorem Inv.complete :
    Inv [] (delete (setQueue { t with running := t.running.erase crash } crash.queue
      (t.queues crash.queue).onCrashCompleted) crash) := by
  have hnum := h.onCrashCompleted hmem
  have hqueues := update_same t.queues crash.queue (t.queues crash.queue).onCrashCompleted
    (by rw [CrashQueue.onCrashCompleted]) (by rw [CrashQueue.onCrashCompleted])
  generalize (t.queues crash.queue).onCrashCompleted = q at hnum hqueues ⊢
  refine ⟨(forall_update_iff t.queues fun k q => q.numConcurrentDumps
      = ((t.running.erase crash).filter fun c => c.queue = k).length).mpr ⟨?_, fun k hk => ?_⟩,
    fun k => ?_, fun k c hc => h.kinds k c ((hqueues k).2 ▸ hc), fun k => ?_, fun id => ?_,
    h.arrived⟩
  · have hcounted := h.counted crash.queue
    rw [inProgress_erase hmem, if_pos rfl] at hcounted
    omega
  · rw [h.counted k, inProgress_erase hmem, if_neg (Ne.symm hk), Nat.add_zero]
  · show (update t.queues crash.queue q k).numConcurrentDumps
      ≤ (update t.queues crash.queue q k).config.maxConcurrentDumps
    have hbounded := h.bounded k
    rw [(hqueues k).1]
    by_cases hk : k = crash.queue
    · subst hk
      rw [update_self]
      omega
    · rwa [update_of_ne hk]
  · show t.arrivals k = t.attempts k ++
      ([] ++ (update t.queues crash.queue q k).queuedRequests).map Crash.id
    rw [h.fifo k, (hqueues k).2]
    rfl
  · have hold := h.places id
    rw [countIn_erase hmem] at hold
    show countIn t.requested id + countIn [] id
      + countQueued (update t.queues crash.queue q) id
      + countIn (t.running.erase crash) id + (t.deleted ++ [crash.id]).count id
      = if id < t.accepted then 1 else 0
    rw [countQueued_congr fun k => (hqueues k).2, count_append, count_singleton]
    simp only [beq_iff_eq]
    omega

/-- `crash_completed_cb`. -/
theorem Inv.completed (hfull : ∀ kind, t.Full kind) (env : Nat → Attempt) :
    Inv [] (t.crashCompletedCb crash env) ∧ ∀ kind, (t.crashCompletedCb crash env).Full kind := by
  have hcomplete := h.complete hmem
  obtain ⟨hinv, hself, hothers⟩ := hcomplete.dequeueLoop crash.queue _ env rfl
  refine ⟨hinv, ?_⟩
  intro k
  by_cases hk : k = crash.queue
  · rw [hk]
    exact hself
  · refine hothers k hk ?_
    intro hne
    have hqueue : ((delete (setQueue { t with running := t.running.erase crash } crash.queue
        (t.queues crash.queue).onCrashCompleted) crash).queues k) = t.queues k :=
      update_of_ne hk ..
    rw [hqueue] at hne ⊢
    exact hfull k hne

end Completed

/-! ### Every run -/

/-- Before the first event. -/
theorem inv_new (config : QueueKind → QueueConfig) (stat : QueueKind → Nat → Stat) :
    Inv [] (new config stat) where
  counted _ := rfl
  bounded _ := Nat.zero_le _
  kinds _ _ hcrash := by cases hcrash
  fifo _ := rfl
  places id := by
    exact (if_neg (Nat.not_lt_zero id)).symm
  arrived _ he := by cases he

/-- One event keeps the invariant. -/
theorem Inv.step {t' : Tombstoned} (h : Inv [] t ∧ ∀ kind, t.Full kind) {event : Event}
    (hstep : t.step event = some t') : Inv [] t' ∧ ∀ kind, t'.Full kind := by
  cases event with
  | accept =>
    cases hstep
    exact ⟨h.1.accept, h.2⟩
  | request id input attempt =>
    obtain ⟨crash, hfind, rfl⟩ := map_eq_some_iff.mp hstep
    exact h.1.request (mem_of_find?_eq_some hfind) h.2 input attempt
  | completed id env =>
    obtain ⟨crash, hfind, rfl⟩ := map_eq_some_iff.mp hstep
    exact h.1.completed (mem_of_find?_eq_some hfind) h.2 env

/-- In every state between two events: the dumps of a queue are counted and bounded, requests
wait only when there is no room, they are served in the order of their arrival, and no crash is
lost or deleted twice. -/
theorem run_sound (config : QueueKind → QueueConfig) (stat : QueueKind → Nat → Stat)
    (events : List Event) (t : Tombstoned)
    (hrun : Transitions.run Tombstoned.step (new config stat) events = some t) : Sound t := by
  have hinv := Transitions.run_invariant
    (fun _ _ _ h => Inv.step h)
    ⟨inv_new config stat, fun _ => absurd rfl⟩ hrun
  exact hinv.1.sound hinv.2

/-- `CrashQueue::for_tombstones` and `CrashQueue::for_anrs`, with the default properties. -/
def defaultConfig : QueueKind → QueueConfig
  | .tombstones =>
    { dirPath := "/data/tombstones".toList
      fileNamePrefix := "tombstone_".toList
      maxArtifacts := 10
      maxConcurrentDumps := 1
      check := by decide
      fits := by decide }
  | .anrs =>
    { dirPath := "/data/anr".toList
      fileNamePrefix := "trace_".toList
      maxArtifacts := 64
      maxConcurrentDumps := 4
      check := by decide
      fits := by decide }

/-- A request that can be read. -/
def goodRequest (dumpType : Nat) (pid : Int) : RequestInput where
  timeout := false
  readable := true
  packet := some ⟨kDumpRequest, dumpType, pid⟩
  peer := some pid

/-- The output is a file, and it is sent. -/
def goodAttempt : Attempt where
  intercepted := false
  sent := .complete

/-- Three tombstones are requested; the second one fails when the first is completed. -/
def threeCrashes : List Event :=
  [.accept, .accept, .accept, .request 0 (goodRequest 1 100) goodAttempt,
    .request 1 (goodRequest 1 101) goodAttempt, .request 2 (goodRequest 1 102) goodAttempt,
    .completed 0 fun i => if i = 0 then { goodAttempt with sent := .error } else goodAttempt]

/-- The empty directories. -/
def noFiles (_ : QueueKind) (_ : Nat) : Stat := .notFound

theorem run_sound_threeCrashes :
    ∃ t, Transitions.run Tombstoned.step (new defaultConfig noFiles) threeCrashes = some t ∧
      Sound t := by
  have hsome : (Transitions.run Tombstoned.step (new defaultConfig noFiles)
      threeCrashes).isSome = true := by decide +kernel
  obtain ⟨t, hrun⟩ := isSome_iff_exists.mp hsome
  exact ⟨t, hrun, run_sound defaultConfig noFiles threeCrashes t hrun⟩

end Tombstoned

end AndroidCore.Debuggerd
