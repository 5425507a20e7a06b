import AndroidCore.Libutils.Looper
import AndroidCore.Lib.Transitions
import Mathlib.Data.List.InsertIdx

/-!
# `AndroidCore.Proofs.Libutils.Looper`: no wake-up is lost

`mNextMessageUptime` is computed under the lock and read without it, at the next call of
`pollInner`. In between, messages come and go. The invariant `Inv` says why this is safe: unless
a `wake()` is owed or the eventfd is set, no message is earlier than `mNextMessageUptime`.

So the looper sleeps too long only if the timeout that it computes from that value is wrong.
`toMillisecondTimeoutDelay` gives up on times that are more than `INT_MAX - 1` milliseconds
ahead, and then a looper without a timeout of its own sleeps with no end (`timely_iff`).
-/

namespace AndroidCore.Libutils.Looper

open Lib List Option

/-! ### The list of messages -/

/-- The messages are ordered by uptime. -/
def Ordered (envelopes : List MessageEnvelope) : Prop :=
  envelopes.Pairwise fun a b => a.uptime ≤ b.uptime

theorem insertionIndex_le_length (uptime : Int) (envelopes : List MessageEnvelope) :
    insertionIndex uptime envelopes ≤ envelopes.length := by
  induction envelopes with
  | nil => exact Nat.le_refl 0
  | cons e rest ih =>
    rw [insertionIndex]
    split
    · exact Nat.succ_le_succ ih
    · exact Nat.zero_le _

variable {envelopes : List MessageEnvelope}

theorem mem_insertIdx_insertionIndex {envelope e : MessageEnvelope} :
    e ∈ envelopes.insertIdx (insertionIndex envelope.uptime envelopes) envelope ↔
      e = envelope ∨ e ∈ envelopes :=
  mem_insertIdx (insertionIndex_le_length envelope.uptime envelopes)

/-- A message is put behind those that are not later. So the list stays ordered by any relation
that agrees with the uptimes and puts a message behind the earlier ones of the same uptime. -/
theorem pairwise_insertIdx {α : Type} {R : α → α → Prop} {f : α → MessageEnvelope} {x : α}
    {order : List α} (h : order.Pairwise R)
    (hbehind : ∀ a ∈ order, (f a).uptime ≤ (f x).uptime → R a x)
    (hbefore : ∀ a, (f x).uptime < (f a).uptime → R x a)
    (hle : ∀ a b, R a b → (f a).uptime ≤ (f b).uptime) :
    (order.insertIdx (insertionIndex (f x).uptime (order.map f)) x).Pairwise R := by
  induction order with
  | nil => exact pairwise_singleton _ _
  | cons a rest ih =>
    obtain ⟨hhead, hrest⟩ := pairwise_cons.mp h
    rw [map_cons]
    by_cases hfirst : (f a).uptime ≤ (f x).uptime
    · rw [insertionIndex, if_pos hfirst]
      refine pairwise_cons.mpr ⟨?_, ih hrest fun b hb => hbehind b (mem_cons_of_mem a hb)⟩
      intro b hb
      rcases eq_or_mem_of_mem_insertIdx hb with rfl | hb
      · exact hbehind a mem_cons_self hfirst
      · exact hhead b hb
    · rw [insertionIndex, if_neg hfirst]
      refine pairwise_cons.mpr ⟨?_, h⟩
      intro b hb
      apply hbefore
      rcases mem_cons.mp hb with rfl | hb
      · omega
      · have hab := hle a b (hhead b hb)
        omega

theorem Ordered.insertIdx (h : Ordered envelopes) (envelope : MessageEnvelope) :
    Ordered (envelopes.insertIdx (insertionIndex envelope.uptime envelopes) envelope) := by
  have hsorted := pairwise_insertIdx (f := id) (x := envelope) h (fun _ _ hle => hle)
    (fun _ => Int.le_of_lt) (fun _ _ hle => hle)
  rwa [List.map_id] at hsorted

variable {uptime : Int}

/-- A message that is not the new head is not earlier than the old one. -/
theorem exists_le_of_insertionIndex_ne (h : insertionIndex uptime envelopes ≠ 0) :
    ∃ e ∈ envelopes, e.uptime ≤ uptime := by
  cases envelopes with
  | nil => exact absurd rfl h
  | cons e rest =>
    refine ⟨e, mem_cons_self, ?_⟩
    by_contra hlt
    rw [insertionIndex, if_neg hlt] at h
    exact h rfl

/-! ### What holds in every state -/

/-- The wake-ups that are under way make up for messages that are earlier than
`mNextMessageUptime`. -/
def Covered (s : Looper) : Prop :=
  s.pendingWakes = 0 → s.wakeCounter = 0 → ∀ e ∈ s.messageEnvelopes, s.nextMessageUptime ≤ e.uptime

structure Inv (s : Looper) : Prop where
  ordered : Ordered s.messageEnvelopes
  inRange : ∀ e ∈ s.messageEnvelopes, e.uptime ≤ llongMax
  /-- The flag `mSendingMessage` is set while a handler runs. -/
  sending : s.sendingMessage = true ↔ ∃ callbacks, s.phase = .handling callbacks
  /-- While a handler runs, `mNextMessageUptime` will still be computed. -/
  covered : s.sendingMessage = false → s.Covered
  /-- The timeout was computed from the present value of `mNextMessageUptime`. -/
  waiting : ∀ timeoutMillis wait, s.phase = .waiting timeoutMillis wait →
    wait.timeoutMillis = adjustTimeout timeoutMillis s.nextMessageUptime wait.start ∧
      timeoutMillis ≤ intMax

theorem inv_new (clock : Nat) : (new clock).Inv where
  ordered := List.Pairwise.nil
  inRange := by simp [new]
  sending := by simp [new]
  covered := by simp [new, Covered]
  waiting := by simp [new]

/-- The events touch neither the messages nor the clock. -/
theorem handleEvents_same (s : Looper) (epoll : EpollResult) :
    (s.handleEvents epoll).1.messageEnvelopes = s.messageEnvelopes ∧
      (s.handleEvents epoll).1.sendingMessage = s.sendingMessage ∧
      (s.handleEvents epoll).1.clock = s.clock := by
  unfold handleEvents
  split
  · exact ⟨rfl, rfl, rfl⟩
  · cases epoll with
    | failed interrupted | timedOut => exact ⟨rfl, rfl, rfl⟩
    | events woken callbacks => cases woken <;> exact ⟨rfl, rfl, rfl⟩

namespace Inv

variable {s : Looper}

/-- A wake-up is issued; the eventfd is set from here on. -/
theorem wake (h : s.Inv) (pendingWakes : Nat) : { s with pendingWakes }.wake.Inv where
  ordered := h.ordered
  inRange := h.inRange
  sending := h.sending
  covered := by
    intro _ _ hzero
    simp [Looper.wake, maxWakeCounter] at hzero
  waiting := h.waiting

theorem scheduleEpollRebuildLocked (h : s.Inv) : s.scheduleEpollRebuildLocked.Inv := by
  unfold Looper.scheduleEpollRebuildLocked
  split
  · exact h
  · exact wake (s := { s with epollRebuildRequired := true })
      ⟨h.ordered, h.inRange, h.sending, h.covered, h.waiting⟩ s.pendingWakes

theorem sendMessageAtTime (h : s.Inv) {envelope : MessageEnvelope}
    (hrange : envelope.uptime ≤ llongMax) : (s.sendMessageAtTime envelope).Inv := by
  have hordered := h.ordered.insertIdx envelope
  have hinRange : ∀ e ∈ s.messageEnvelopes.insertIdx
      (insertionIndex envelope.uptime s.messageEnvelopes) envelope, e.uptime ≤ llongMax := by
    intro e he
    rcases mem_insertIdx_insertionIndex.mp he with rfl | he
    · exact hrange
    · exact h.inRange e he
  simp only [Looper.sendMessageAtTime]
  split
  · next hsending =>
      refine ⟨hordered, hinRange, h.sending, ?_, h.waiting⟩
      exact fun hnot => absurd (hsending.symm.trans hnot) (by simp)
  · next hsending =>
      split
      · refine ⟨hordered, hinRange, h.sending, ?_, h.waiting⟩
        exact fun _ hpending => absurd hpending (Nat.succ_ne_zero _)
      · next hindex =>
          refine ⟨hordered, hinRange, h.sending, ?_, h.waiting⟩
          intro hnot hpending hcounter e he
          have hle := h.covered hnot hpending hcounter
          rcases mem_insertIdx_insertionIndex.mp he with rfl | he
          · obtain ⟨first, hfirst, hfirstLe⟩ := exists_le_of_insertionIndex_ne hindex
            exact Int.le_trans (hle first hfirst) hfirstLe
          · exact hle e he

theorem removeMessages (h : s.Inv) (handler : Nat) (what : Option Int) :
    (s.removeMessages handler what).Inv where
  ordered := h.ordered.filter _
  inRange e he := h.inRange e (filter_sublist.subset he)
  sending := h.sending
  covered hsending hpending hcounter e he :=
    h.covered hsending hpending hcounter e (filter_sublist.subset he)
  waiting := h.waiting

/-- The loop over the messages ends with the uptime of the first one that is left. -/
theorem dispatch (hordered : Ordered s.messageEnvelopes)
    (hinRange : ∀ e ∈ s.messageEnvelopes, e.uptime ≤ llongMax)
    (hsending : s.sendingMessage = false) (result : PollResult) (callbacks : Bool) :
    (s.dispatch result callbacks).Inv := by
  unfold Looper.dispatch
  split
  · next hnil =>
      refine ⟨hordered, hinRange, by simp [finish, hsending], ?_, by simp [finish]⟩
      intro _ _ _ e he
      exact absurd (hnil ▸ he) not_mem_nil
  · next first rest hcons =>
      rw [hcons] at hordered hinRange
      obtain ⟨hhead, hrest⟩ := pairwise_cons.mp hordered
      split
      · refine ⟨hrest, fun e he => hinRange e (mem_cons_of_mem first he), by simp, ?_, by simp⟩
        exact fun hnot => absurd hnot (by simp)
      · refine ⟨?_, ?_, by simp [finish, hsending], ?_, by simp [finish]⟩
        · exact hcons ▸ hordered
        · exact hcons ▸ hinRange
        · intro _ _ _ e he
          rcases mem_cons.mp (hcons ▸ he) with rfl | he
          · exact Int.le_refl _
          · exact hhead e he

/-- Whatever `epoll_wait` returns, `mNextMessageUptime` is computed again. -/
theorem polled (h : s.Inv) (hsending : s.sendingMessage = false) (epoll : EpollResult) :
    (s.polled epoll).Inv := by
  obtain ⟨hsame, hflag, -⟩ := s.handleEvents_same epoll
  refine Inv.dispatch ?_ ?_ ?_ _ _
  · show Ordered (s.handleEvents epoll).1.messageEnvelopes
    rw [hsame]
    exact h.ordered
  · show ∀ e ∈ (s.handleEvents epoll).1.messageEnvelopes, e.uptime ≤ llongMax
    rw [hsame]
    exact h.inRange
  · exact hflag.trans hsending

theorem handled (h : s.Inv) (callbacks : Bool) : (s.handled callbacks).Inv :=
  Inv.dispatch (s := { s with sendingMessage := false }) h.ordered h.inRange rfl _ _

theorem not_sending (h : s.Inv) (hphase : ∀ callbacks, s.phase ≠ .handling callbacks) :
    s.sendingMessage = false := by
  rw [← Bool.not_eq_true, h.sending]
  exact fun ⟨callbacks, hhandling⟩ => hphase callbacks hhandling

/-- Every step keeps the invariant. -/
theorem step {s' : Looper} {a : Action} (h : s.Inv) (hs : s.step a = some s') : s'.Inv := by
  cases a with
  | tick nanos =>
    cases hs
    exact ⟨h.ordered, h.inRange, h.sending, h.covered, h.waiting⟩
  | sendMessageAtTime envelope =>
    obtain ⟨hrange, ⟨⟩⟩ := ite_none_right_eq_some.mp hs
    exact h.sendMessageAtTime hrange.2
  | issueWake =>
    obtain ⟨-, ⟨⟩⟩ := ite_none_left_eq_some.mp hs
    exact h.wake _
  | wake =>
    cases hs
    exact h.wake s.pendingWakes
  | removeMessages handler what =>
    cases hs
    exact h.removeMessages handler what
  | scheduleEpollRebuild =>
    cases hs
    exact h.scheduleEpollRebuildLocked
  | pollInner timeoutMillis =>
    simp only [Looper.step] at hs
    split at hs
    · next hidle =>
        obtain ⟨hrange, ⟨⟩⟩ := ite_none_right_eq_some.mp hs
        have hnot : s.sendingMessage = false := h.not_sending (by simp [hidle])
        refine ⟨h.ordered, h.inRange, by simp [Looper.pollInner, hnot], h.covered, ?_⟩
        intro t wait hwait
        obtain ⟨rfl, rfl⟩ := Phase.waiting.inj hwait
        exact ⟨rfl, hrange.2⟩
    · cases hs
  | epollReturns epoll =>
    simp only [Looper.step] at hs
    split at hs
    · next hwaiting =>
        cases hs
        exact h.polled (h.not_sending (by simp [hwaiting])) epoll
    · cases hs
  | handlerReturns =>
    simp only [Looper.step] at hs
    split at hs
    · cases hs
      exact h.handled _
    · cases hs

end Inv

/-! ### The length of a wait -/

/-- The time until `uptime`, in milliseconds and rounded up; no time for one that has passed. -/
def millisUntil (start uptime : Int) : Int :=
  if uptime > start then (uptime - start + 999999) / nanosPerMilli else 0

/-- The wait ends no later than the messages are due, rounded up to a millisecond. -/
def Timely (s : Looper) (wait : Wait) : Prop :=
  ∀ e ∈ s.messageEnvelopes, 0 ≤ wait.timeoutMillis ∧
    wait.timeoutMillis ≤ millisUntil wait.start e.uptime

/-- The next message is near enough. A looper without a timeout needs one that
`toMillisecondTimeoutDelay` can express. With a timeout only a message at `LLONG_MAX`, which
counts as none, may be missed, at the end of the clock. -/
def InReach (timeoutMillis nextMessageUptime start : Int) : Prop :=
  if timeoutMillis < 0 then
    nextMessageUptime ≠ llongMax ∧ nextMessageUptime - start ≤ (intMax - 1) * nanosPerMilli
  else nextMessageUptime = llongMax → timeoutMillis ≤ millisUntil start llongMax

theorem millisUntil_mono (start : Int) {u v : Int} (h : u ≤ v) :
    millisUntil start u ≤ millisUntil start v := by
  unfold millisUntil nanosPerMilli
  split <;> split <;> omega

theorem millisUntil_nonneg (start uptime : Int) : 0 ≤ millisUntil start uptime := by
  unfold millisUntil nanosPerMilli
  split <;> omega

variable {start timeoutMillis next : Int}

/-- A time that is near is rounded up to milliseconds. -/
theorem toMillisecondTimeoutDelay_of_le (h : uptime - start ≤ (intMax - 1) * nanosPerMilli) :
    toMillisecondTimeoutDelay start uptime = millisUntil start uptime := by
  unfold toMillisecondTimeoutDelay millisUntil
  rw [if_neg (Int.not_lt.mpr h)]

/-- There is no timeout for one that is far. -/
theorem toMillisecondTimeoutDelay_of_lt (h : (intMax - 1) * nanosPerMilli < uptime - start) :
    toMillisecondTimeoutDelay start uptime = -1 := by
  have hlater : uptime > start := by
    unfold intMax nanosPerMilli at h
    omega
  unfold toMillisecondTimeoutDelay
  rw [if_pos hlater, if_pos h]

/-- A message that is near shortens the timeout. -/
theorem adjustTimeout_of_near (ht : timeoutMillis ≠ 0) (hnext : next ≠ llongMax)
    (h : next - start ≤ (intMax - 1) * nanosPerMilli) :
    adjustTimeout timeoutMillis next start =
      if timeoutMillis < 0 then millisUntil start next
      else min timeoutMillis (millisUntil start next) := by
  have hnonneg := millisUntil_nonneg start next
  unfold adjustTimeout
  dsimp only
  rw [if_pos ⟨ht, hnext⟩, toMillisecondTimeoutDelay_of_le h]
  split <;> split <;> omega

/-- Otherwise the timeout of the caller is taken. -/
theorem adjustTimeout_of_far
    (h : timeoutMillis = 0 ∨ next = llongMax ∨ (intMax - 1) * nanosPerMilli < next - start) :
    adjustTimeout timeoutMillis next start = timeoutMillis := by
  unfold adjustTimeout
  split
  · next hboth =>
      have hfar := (h.resolve_left hboth.1).resolve_left hboth.2
      rw [toMillisecondTimeoutDelay_of_lt hfar]
      rfl
  · rfl

/-- The timeout that `pollInner` computes is right for messages in reach. -/
theorem adjustTimeout_le (hint : timeoutMillis ≤ intMax) (h : InReach timeoutMillis next start) :
    0 ≤ adjustTimeout timeoutMillis next start ∧
      adjustTimeout timeoutMillis next start ≤ millisUntil start next := by
  have hnonneg := millisUntil_nonneg start next
  unfold InReach at h
  split at h
  · next hneg =>
      rw [adjustTimeout_of_near (by omega) h.1 h.2, if_pos hneg]
      exact ⟨hnonneg, Int.le_refl _⟩
  · by_cases hfar : next = llongMax ∨ (intMax - 1) * nanosPerMilli < next - start
    · rw [adjustTimeout_of_far (.inr hfar)]
      refine ⟨by omega, ?_⟩
      rcases hfar with rfl | hfar
      · exact h rfl
      · -- the largest timeout is one millisecond longer than the largest near time
        unfold millisUntil nanosPerMilli at *
        split <;> omega
    · by_cases hzero : timeoutMillis = 0
      · rw [hzero]
        exact ⟨Int.le_refl 0, hnonneg⟩
      · rw [not_or, Int.not_lt] at hfar
        rw [adjustTimeout_of_near hzero hfar.1 hfar.2]
        omega

/-- A looper whose next message is out of reach sleeps with no end, or beyond the end of the
clock. -/
theorem inReach_of_adjustTimeout (h : 0 ≤ adjustTimeout timeoutMillis next start)
    (hmax : next = llongMax → adjustTimeout timeoutMillis next start ≤ millisUntil start llongMax) :
    InReach timeoutMillis next start := by
  unfold InReach
  split
  · by_contra hfar
    rw [Decidable.not_and_iff_not_or_not, Decidable.not_not, Int.not_le] at hfar
    rw [adjustTimeout_of_far (.inr hfar)] at h
    omega
  · intro hnext
    rw [adjustTimeout_of_far (.inr (.inl hnext))] at hmax
    exact hmax hnext

/-- In every state in which the looper sleeps, all wake-ups were issued and the eventfd is not
set, the wait ends in time if and only if the next message is in reach. -/
theorem timely_iff (clock : Nat) (actions : List Action) (s : Looper)
    (hrun : Transitions.run step (new clock) actions = some s) (timeoutMillis : Int) (wait : Wait)
    (hwait : s.phase = .waiting timeoutMillis wait) (hissued : s.pendingWakes = 0)
    (hcounter : s.wakeCounter = 0) (hne : s.messageEnvelopes ≠ []) :
    s.Timely wait ↔ InReach timeoutMillis s.nextMessageUptime wait.start := by
  have hinv : s.Inv := Transitions.run_invariant (fun _ _ _ h => h.step) (inv_new clock) hrun
  obtain ⟨htimeout, hint⟩ := hinv.waiting timeoutMillis wait hwait
  have hcovered := hinv.covered (hinv.not_sending (by simp [hwait])) hissued hcounter
  constructor
  · intro h
    obtain ⟨e, he⟩ := exists_mem_of_ne_nil s.messageEnvelopes hne
    obtain ⟨hnonneg, hle⟩ := h e he
    rw [htimeout] at hnonneg hle
    apply inReach_of_adjustTimeout hnonneg
    intro hmax
    have hlast : e.uptime = llongMax :=
      Int.le_antisymm (hinv.inRange e he) (hmax ▸ hcovered e he)
    exact hlast ▸ hle
  · intro h e he
    obtain ⟨hnonneg, hle⟩ := adjustTimeout_le hint h
    rw [htimeout]
    exact ⟨hnonneg, Int.le_trans hle (millisUntil_mono wait.start (hcovered e he))⟩

/-- A looper without a timeout gets a message that is due in ten milliseconds. -/
def shortDelay : List Action :=
  [.sendMessageAtTime ⟨10000000, 0, 0⟩, .issueWake, .pollInner (-1),
   .epollReturns (.events true false), .pollInner (-1)]

theorem timely_iff_shortDelay :
    ∃ s wait, Transitions.run step (new 0) shortDelay = some s ∧ s.phase = .waiting (-1) wait ∧
      s.pendingWakes = 0 ∧ s.wakeCounter = 0 ∧ s.messageEnvelopes ≠ [] ∧
      (s.Timely wait ↔ InReach (-1) s.nextMessageUptime wait.start) :=
  ⟨_, _, rfl, rfl, rfl, rfl, cons_ne_nil _ _,
    timely_iff 0 shortDelay _ rfl (-1) _ rfl rfl rfl (cons_ne_nil _ _)⟩

/-- The message is due in thirty days. -/
def longDelay : List Action :=
  [.sendMessageAtTime ⟨2592000000000000, 0, 0⟩, .issueWake, .pollInner (-1),
   .epollReturns (.events true false), .pollInner (-1)]

/-- The looper knows the message and sleeps with no end. -/
theorem longDelay_not_timely :
    ∃ s wait, Transitions.run step (new 0) longDelay = some s ∧ s.phase = .waiting (-1) wait ∧
      s.pendingWakes = 0 ∧ s.wakeCounter = 0 ∧ s.nextMessageUptime = 2592000000000000 ∧
      s.messageEnvelopes = [⟨2592000000000000, 0, 0⟩] ∧ wait.timeoutMillis = -1 ∧
      ¬ s.Timely wait := by
  refine ⟨_, _, rfl, rfl, rfl, rfl, rfl, rfl, rfl, ?_⟩
  intro h
  exact absurd (h _ mem_cons_self).1 (by decide)

end AndroidCore.Libutils.Looper
