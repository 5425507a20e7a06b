import AndroidCore.Proofs.Libutils.Looper

/-!
# `AndroidCore.Proofs.Libutils.Dispatch`: the earliest message first

Messages have no names of their own, and two of them may be equal. A `Ledger` numbers them in the
order in which they were sent, and keeps those that are pending and those that were handed to
their handlers. `Ledger.Next` says what a step may do to it: the loop of `pollInner` takes the
pending message with the least uptime, of equal ones the one that was sent first, and only when
it is due; the loop ends when none is due.

Every run of the looper has such a ledger, and no message is dispatched twice in it
(`run_dispatches_earliest`). The reason is `Queue`: the list of the looper holds the pending
messages, ordered by uptime and number.
-/

namespace AndroidCore.Libutils.Looper

open Lib List

/-- The first message is to be dispatched before the second. -/
def Before (a b : Nat × MessageEnvelope) : Prop :=
  a.2.uptime < b.2.uptime ∨ a.2.uptime = b.2.uptime ∧ a.1 < b.1

theorem Before.uptime_le {a b : Nat × MessageEnvelope} (h : Before a b) :
    a.2.uptime ≤ b.2.uptime := by
  unfold Before at h
  omega

/-- The messages of a run with their numbers: how many were sent, the pending ones and the
dispatched ones, in no order. -/
structure Ledger where
  sent : Nat
  pending : List (Nat × MessageEnvelope)
  dispatched : List (Nat × MessageEnvelope)

/-- What the loop of `pollInner` does, up to the next call of a handler or to its end. It enters
the handler of the earliest message, which is due and leaves the list, or it finishes: then no
message is due, and the list is as it was. -/
def Ledger.Polled (l : Ledger) (s s' : Looper) (l' : Ledger) : Prop :=
  (∃ m ∈ l.pending, (∀ other ∈ l.pending, other ≠ m → Before m other) ∧ m.2.uptime ≤ s.clock ∧
    (∃ callbacks, s'.phase = .handling callbacks) ∧
    s.messageEnvelopes = m.2 :: s'.messageEnvelopes ∧
    l' = ⟨l.sent, l.pending.erase m, m :: l.dispatched⟩) ∨
  s'.phase = .idle ∧ (∀ m ∈ l.pending, s'.clock < m.2.uptime) ∧
    s'.messageEnvelopes = s.messageEnvelopes ∧ l' = l

/-- What a step does. -/
def Ledger.Next (l : Ledger) (s s' : Looper) (l' : Ledger) : Action → Prop
  | .sendMessageAtTime envelope =>
    l' = ⟨l.sent + 1, (l.sent, envelope) :: l.pending, l.dispatched⟩
  | .removeMessages handler what =>
    l' = { l with
      pending := l.pending.filter fun m =>
        ¬ (m.2.handler = handler ∧ ∀ w ∈ what, m.2.what = w) }
  | .epollReturns _ | .handlerReturns => l.Polled s s' l'
  | _ => l' = l

/-- The actions after which the loop of `pollInner` runs. -/
def Action.polls : Action → Bool
  | .epollReturns _ | .handlerReturns => true
  | _ => false

/-- The ledger along a run. -/
inductive Recorded : Looper → Ledger → List Action → Looper → Ledger → Prop
  | nil (s : Looper) (l : Ledger) : Recorded s l [] s l
  | cons {s s' last : Looper} {l l' ledger : Ledger} {a : Action} {actions : List Action}
      (hs : s.step a = some s') (hl : l.Next s s' l' a)
      (h : Recorded s' l' actions last ledger) : Recorded s l (a :: actions) last ledger

/-- No pending message is due when the loop of `pollInner` finishes. -/
theorem Recorded.not_due {s last : Looper} {l ledger : Ledger} {actions : List Action}
    (h : Recorded s l actions last ledger) :
    ∀ a ∈ actions.getLast?, a.polls = true → last.phase = .idle →
      ∀ m ∈ ledger.pending, last.clock < m.2.uptime := by
  induction h with
  | nil => nofun
  | @cons s s' last l l' ledger a actions hs hl h ih =>
    cases h with
    | cons hs' hl' h' => exact ih
    | nil =>
      intro b hb hpolls hidle
      obtain rfl : a = b := Option.some.inj hb
      have hpolled : l.Polled s s' l' := by
        cases a with
        | epollReturns | handlerReturns => exact hl
        | _ => exact absurd hpolls nofun
      rcases hpolled with ⟨_, _, _, _, ⟨callbacks, hhandling⟩, _⟩ | ⟨_, hdue, _, rfl⟩
      · exact absurd (hidle.symm.trans hhandling) nofun
      · exact hdue

/-- The list of the looper is `order`, without the numbers. -/
structure Queue (s : Looper) (l : Ledger) (order : List (Nat × MessageEnvelope)) : Prop where
  envelopes : s.messageEnvelopes = order.map Prod.snd
  perm : order ~ l.pending
  sorted : order.Pairwise Before
  sent : ∀ m ∈ l.pending ++ l.dispatched, m.1 < l.sent
  nodup : ((l.pending ++ l.dispatched).map Prod.fst).Nodup

namespace Queue

variable {s s' : Looper} {l : Ledger} {order : List (Nat × MessageEnvelope)}

theorem sendMessageAtTime (h : Queue s l order) (envelope : MessageEnvelope) :
    Queue (s.sendMessageAtTime envelope)
      ⟨l.sent + 1, (l.sent, envelope) :: l.pending, l.dispatched⟩
      (order.insertIdx (insertionIndex envelope.uptime (order.map Prod.snd))
        (l.sent, envelope)) := by
  have hlen := insertionIndex_le_length envelope.uptime (order.map Prod.snd)
  rw [length_map] at hlen
  refine ⟨?_, (perm_insertIdx _ _ hlen).trans (h.perm.cons _), ?_, ?_, ?_⟩
  · rw [map_insertIdx, ← h.envelopes]
    simp only [Looper.sendMessageAtTime]
    repeat' split
    all_goals rfl
  · refine pairwise_insertIdx h.sorted ?_ (fun _ => .inl) ?_
    · intro m hm (hle : m.2.uptime ≤ envelope.uptime)
      have hnum := h.sent m (mem_append_left _ (h.perm.mem_iff.mp hm))
      show m.2.uptime < envelope.uptime ∨ m.2.uptime = envelope.uptime ∧ m.1 < l.sent
      omega
    · exact fun _ _ => Before.uptime_le
  · refine forall_mem_cons.mpr ⟨Nat.lt_succ_self _, ?_⟩
    exact fun m hm => Nat.lt_succ_of_lt (h.sent m hm)
  · refine nodup_cons.mpr ⟨?_, h.nodup⟩
    intro hmem
    obtain ⟨m, hm, heq⟩ := mem_map.mp hmem
    exact absurd heq (Nat.ne_of_lt (h.sent m hm))

theorem removeMessages (h : Queue s l order) (handler : Nat) (what : Option Int) :
    ∃ order', Queue (s.removeMessages handler what)
      { l with
        pending := l.pending.filter fun m =>
          ¬ (m.2.handler = handler ∧ ∀ w ∈ what, m.2.what = w) } order' := by
  refine ⟨_, ?_, h.perm.filter _, h.sorted.filter _, ?_, ?_⟩
  · simp only [Looper.removeMessages, h.envelopes, filter_map]
    rfl
  · exact fun m hm => h.sent m ((filter_sublist.append_right _).subset hm)
  · exact h.nodup.sublist ((filter_sublist.append_right _).map _)

/-- The first message is taken from the list. -/
theorem take {m : Nat × MessageEnvelope} (h : Queue s l (m :: order))
    (hrest : s'.messageEnvelopes = order.map Prod.snd) :
    Queue s' ⟨l.sent, l.pending.erase m, m :: l.dispatched⟩ order := by
  have hmem : m ∈ l.pending := h.perm.mem_iff.mp mem_cons_self
  have hperm : l.pending.erase m ++ m :: l.dispatched ~ l.pending ++ l.dispatched :=
    perm_middle.trans ((perm_cons_erase hmem).symm.append_right _)
  refine ⟨hrest, ?_, h.sorted.of_cons, ?_, ?_⟩
  · have herase := h.perm.erase m
    rwa [erase_cons_head] at herase
  · exact fun other hother => h.sent other (hperm.mem_iff.mp hother)
  · exact (hperm.map _).nodup_iff.mpr h.nodup

/-- The loop over the messages; `t` is the looper after the events were handled. -/
theorem dispatch (h : Queue s l order) {t : Looper}
    (hsame : t.messageEnvelopes = s.messageEnvelopes) (hclock : t.clock = s.clock)
    (result : PollResult) (callbacks : Bool) :
    ∃ l' order', l.Polled s (t.dispatch result callbacks) l' ∧
      Queue (t.dispatch result callbacks) l' order' := by
  have hlist := hsame.trans h.envelopes
  unfold Looper.dispatch
  rw [hlist]
  cases order with
  | nil =>
    refine ⟨l, [], .inr ⟨rfl, ?_, hsame, rfl⟩, ⟨hlist, h.perm, h.sorted, h.sent, h.nodup⟩⟩
    exact fun m hm => absurd (h.perm.mem_iff.mpr hm) not_mem_nil
  | cons m rest =>
    have hfirst := (pairwise_cons.mp h.sorted).1
    rw [map_cons]
    dsimp only
    by_cases hdue : m.2.uptime ≤ t.clock
    · rw [if_pos hdue]
      refine ⟨_, rest, .inl ⟨m, h.perm.mem_iff.mp mem_cons_self, ?_, hclock ▸ hdue,
        ⟨callbacks, rfl⟩, h.envelopes, rfl⟩, h.take rfl⟩
      intro other hother hne
      exact hfirst other ((mem_cons.mp (h.perm.mem_iff.mpr hother)).resolve_left hne)
    · rw [if_neg hdue]
      refine ⟨l, m :: rest, .inr ⟨rfl, ?_, h.envelopes.symm, rfl⟩, ⟨rfl, h.perm, h.sorted, h.sent, h.nodup⟩⟩
      -- no message is before the first one
      intro other hother
      rcases mem_cons.mp (h.perm.mem_iff.mpr hother) with rfl | hother
      · exact Int.not_le.mp hdue
      · exact Int.lt_of_lt_of_le (Int.not_le.mp hdue) (hfirst other hother).uptime_le

/-- Every step has its place in the ledger. -/
theorem step {a : Action} (h : Queue s l order) (hs : s.step a = some s') :
    ∃ l' order', l.Next s s' l' a ∧ Queue s' l' order' := by
  cases a with
  | sendMessageAtTime envelope =>
    simp only [Looper.step] at hs
    split at hs <;> cases hs
    exact ⟨_, _, rfl, h.sendMessageAtTime envelope⟩
  | removeMessages handler what =>
    cases hs
    obtain ⟨order', horder⟩ := h.removeMessages handler what
    exact ⟨_, order', rfl, horder⟩
  | epollReturns epoll =>
    simp only [Looper.step] at hs
    split at hs <;> cases hs
    obtain ⟨hsame, -, hclock⟩ := s.handleEvents_same epoll
    exact h.dispatch (t := { (s.handleEvents epoll).1 with nextMessageUptime := llongMax })
      hsame hclock _ _
  | handlerReturns =>
    simp only [Looper.step] at hs
    split at hs <;> cases hs
    exact h.dispatch (t := { s with sendingMessage := false }) rfl rfl _ _
  | tick nanos | issueWake | wake | scheduleEpollRebuild | pollInner timeoutMillis =>
    have hsame : s'.messageEnvelopes = s.messageEnvelopes := by
      simp only [Looper.step, Looper.scheduleEpollRebuildLocked] at hs
      repeat' split at hs
      all_goals cases hs
      all_goals rfl
    exact ⟨l, order, rfl, ⟨hsame.trans h.envelopes, h.perm, h.sorted, h.sent, h.nodup⟩⟩

theorem run {actions : List Action} {last : Looper} (h : Queue s l order)
    (hrun : Transitions.run Looper.step s actions = some last) :
    ∃ ledger order', Recorded s l actions last ledger ∧ Queue last ledger order' := by
  induction actions generalizing s l order with
  | nil =>
    obtain rfl := Option.some.inj hrun
    exact ⟨l, order, .nil s l, h⟩
  | cons a actions ih =>
    rw [Transitions.run_cons, Option.bind_eq_some_iff] at hrun
    obtain ⟨s', hs, hrest⟩ := hrun
    obtain ⟨l', order', hnext, hqueue⟩ := h.step hs
    obtain ⟨ledger, order'', hrecorded, hlast⟩ := ih hqueue hrest
    exact ⟨ledger, order'', .cons hs hnext hrecorded, hlast⟩

end Queue

/-- Every run has a ledger, with the messages of the looper's list as the pending ones: each time
the earliest due message is dispatched, none twice, and when `pollInner` finishes its loop no
pending message is due. -/
theorem run_dispatches_earliest (clock : Nat) (actions : List Action) (s : Looper)
    (hrun : Transitions.run step (new clock) actions = some s) :
    ∃ l, Recorded (new clock) ⟨0, [], []⟩ actions s l ∧
      l.pending.map Prod.snd ~ s.messageEnvelopes ∧ (l.dispatched.map Prod.fst).Nodup ∧
      ∀ a ∈ actions.getLast?, a.polls = true → s.phase = .idle →
        ∀ m ∈ l.pending, s.clock < m.2.uptime := by
  have hstart : Queue (new clock) ⟨0, [], []⟩ [] :=
    ⟨rfl, Perm.nil, Pairwise.nil, by simp, by simp⟩
  obtain ⟨l, order, hl, horder⟩ := hstart.run hrun
  refine ⟨l, hl, ?_, horder.nodup.sublist ((sublist_append_right _ _).map _), hl.not_due⟩
  rw [horder.envelopes]
  exact (horder.perm.map _).symm

/-- Two messages, the later one sent first, and a third that the handler of the earlier one sends.
The loop hands over the two that are due and leaves the third. -/
def sendWhileHandling : List Action :=
  [.sendMessageAtTime ⟨5, 0, 0⟩, .sendMessageAtTime ⟨3, 1, 0⟩, .pollInner (-1), .tick 7,
    .epollReturns .timedOut, .sendMessageAtTime ⟨9, 0, 1⟩, .handlerReturns, .handlerReturns]

theorem run_dispatches_earliest_sendWhileHandling :
    ∃ s, Transitions.run step (new 0) sendWhileHandling = some s ∧
      s.phase = .idle ∧ s.messageEnvelopes = [⟨9, 0, 1⟩] ∧
      ∃ l, Recorded (new 0) ⟨0, [], []⟩ sendWhileHandling s l ∧
        l.pending.map Prod.snd ~ s.messageEnvelopes ∧ (l.dispatched.map Prod.fst).Nodup ∧
        ∀ a ∈ sendWhileHandling.getLast?, a.polls = true → s.phase = .idle →
          ∀ m ∈ l.pending, s.clock < m.2.uptime :=
  ⟨_, rfl, rfl, rfl, run_dispatches_earliest 0 sendWhileHandling _ rfl⟩

end AndroidCore.Libutils.Looper
