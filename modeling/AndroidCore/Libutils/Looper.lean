import Mathlib.Logic.Basic

/-!
# `AndroidCore.Libutils.Looper`: the message loop and its wake-ups

The model of the messages of `Looper.cpp`, with `toMillisecondTimeoutDelay` of `Timers.cpp`.
Threads put messages in a list that is sorted by uptime. One thread, the looper, computes from
`mNextMessageUptime` how long it may sleep, sleeps in `epoll_wait`, and then delivers what is
due. A thread that puts a new message at the head wakes it through an eventfd.

* A step is one critical section under `mLock`, or one access outside of it. A call of
  `sendMessageAtTime` is therefore two steps: the critical section, and the `wake()` that it may
  still owe after that (`pendingWakes`). `pollInner` is cut at `epoll_wait` and at each call of a
  handler, during which the lock is free.
* Times are in nanoseconds. `clock` is what `systemTime` returns; it only grows.
* What `epoll_wait` returns is free, except for the state it leaves. Of the ready file
  descriptors the model keeps whether the eventfd is among them, and whether one of the others
  has a callback, on which the result of `pollInner` depends.
* Handlers and callbacks do what any thread may do; they do not poll the same looper again.
* `mPolling` is left out: the looper polls when its phase is `waiting`.
-/

namespace AndroidCore.Libutils

/-- `LLONG_MAX`, the value of `mNextMessageUptime` when no message is left. -/
def llongMax : Int := 9223372036854775807

/-- `INT_MAX`. -/
def intMax : Int := 2147483647

/-- The nanoseconds of a millisecond. -/
def nanosPerMilli : Int := 1000000

/-- `toMillisecondTimeoutDelay`. -/
def toMillisecondTimeoutDelay (referenceTime timeoutTime : Int) : Int :=
  if timeoutTime > referenceTime then
    let timeoutDelay := timeoutTime - referenceTime
    if timeoutDelay > (intMax - 1) * nanosPerMilli then -1
    else (timeoutDelay + 999999) / nanosPerMilli
  else 0

/-- `MessageEnvelope`, with the handler and the `what` of its message. -/
structure MessageEnvelope where
  uptime : Int
  handler : Nat
  what : Int
  deriving DecidableEq, Repr

/-- The results of `pollOnce`. -/
inductive PollResult where
  | wake
  | callback
  | timeout
  | error
  deriving DecidableEq, Repr

/-- A call of `epoll_wait`: its timeout, and the clock when the timeout was computed. -/
structure Wait where
  timeoutMillis : Int
  start : Int
  deriving DecidableEq, Repr

/-- Where the looper thread is. `waiting` keeps the timeout that the caller gave. -/
inductive Phase where
  | idle
  | waiting (timeoutMillis : Int) (wait : Wait)
  | handling (callbacks : Bool)
  deriving DecidableEq, Repr

/-- What `epoll_wait` returns. -/
inductive EpollResult where
  | failed (interrupted : Bool)
  | timedOut
  | events (woken : Bool) (callbacks : Bool)
  deriving DecidableEq, Repr

/-- `Looper`. -/
structure Looper where
  messageEnvelopes : List MessageEnvelope
  sendingMessage : Bool
  nextMessageUptime : Int
  epollRebuildRequired : Bool
  wakeCounter : Nat
  pendingWakes : Nat
  phase : Phase
  lastResult : Option PollResult
  clock : Nat
  deriving DecidableEq, Repr

/-- An eventfd counts no further. -/
def maxWakeCounter : Nat := 18446744073709551614

namespace Looper

/-- The constructor. -/
def new (clock : Nat) : Looper where
  messageEnvelopes := []
  sendingMessage := false
  nextMessageUptime := llongMax
  epollRebuildRequired := false
  wakeCounter := 0
  pendingWakes := 0
  phase := .idle
  lastResult := none
  clock := clock

/-- `wake`. A write to a full eventfd fails with `EAGAIN`, which is ignored. -/
def wake (s : Looper) : Looper := { s with wakeCounter := min (s.wakeCounter + 1) maxWakeCounter }

/-- `awoken`. -/
def awoken (s : Looper) : Looper := { s with wakeCounter := 0 }

/-- `scheduleEpollRebuildLocked`. -/
def scheduleEpollRebuildLocked (s : Looper) : Looper :=
  if s.epollRebuildRequired then s else { s with epollRebuildRequired := true }.wake

/-- The loop of `sendMessageAtTime` that looks for the place of a message. -/
def insertionIndex (uptime : Int) : List MessageEnvelope → Nat
  | [] => 0
  | envelope :: rest => if uptime ≥ envelope.uptime then insertionIndex uptime rest + 1 else 0

/-- The critical section of `sendMessageAtTime`; the caller owes a `wake()` when the message is
the new head. -/
def sendMessageAtTime (s : Looper) (envelope : MessageEnvelope) : Looper :=
  let i := insertionIndex envelope.uptime s.messageEnvelopes
  let s := { s with messageEnvelopes := s.messageEnvelopes.insertIdx i envelope }
  if s.sendingMessage then s
  else if i = 0 then { s with pendingWakes := s.pendingWakes + 1 }
  else s

/-- `removeMessages`, for all messages of a handler or for those with the given `what`. -/
def removeMessages (s : Looper) (handler : Nat) (what : Option Int) : Looper :=
  { s with
    messageEnvelopes := s.messageEnvelopes.filter fun envelope =>
      ¬ (envelope.handler = handler ∧ ∀ w ∈ what, envelope.what = w) }

/-- The timeout that `pollInner` gives to `epoll_wait`. -/
def adjustTimeout (timeoutMillis nextMessageUptime now : Int) : Int :=
  if timeoutMillis ≠ 0 ∧ nextMessageUptime ≠ llongMax then
    let messageTimeoutMillis := toMillisecondTimeoutDelay now nextMessageUptime
    if messageTimeoutMillis ≥ 0 ∧ (timeoutMillis < 0 ∨ messageTimeoutMillis < timeoutMillis) then
      messageTimeoutMillis
    else timeoutMillis
  else timeoutMillis

/-- The beginning of `pollInner`, up to `epoll_wait`. -/
def pollInner (s : Looper) (timeoutMillis : Int) : Looper :=
  { s with
    phase := .waiting timeoutMillis
      { timeoutMillis := adjustTimeout timeoutMillis s.nextMessageUptime s.clock
        start := s.clock } }

/-- `pollInner` returns. The callbacks of the file descriptors run first. -/
def finish (s : Looper) (result : PollResult) (callbacks : Bool) : Looper :=
  { s with
    phase := .idle
    lastResult := some (if callbacks then .callback else result) }

/-- The loop of `pollInner` over the messages, up to the next call of a handler. -/
def dispatch (s : Looper) (result : PollResult) (callbacks : Bool) : Looper :=
  match s.messageEnvelopes with
  | [] => s.finish result callbacks
  | envelope :: rest =>
    if envelope.uptime ≤ s.clock then
      { s with
        messageEnvelopes := rest
        sendingMessage := true
        phase := .handling callbacks }
    else { s with nextMessageUptime := envelope.uptime }.finish result callbacks

/-- What `pollInner` does with the result of `epoll_wait`. -/
def handleEvents (s : Looper) (epoll : EpollResult) : Looper × PollResult × Bool :=
  if s.epollRebuildRequired then ({ s with epollRebuildRequired := false }, .wake, false)
  else
    match epoll with
    | .failed interrupted => (s, if interrupted then .wake else .error, false)
    | .timedOut => (s, .timeout, false)
    | .events woken callbacks => (if woken then s.awoken else s, .wake, callbacks)

/-- The critical section of `pollInner` after `epoll_wait`. -/
def polled (s : Looper) (epoll : EpollResult) : Looper :=
  let (s, result, callbacks) := s.handleEvents epoll
  { s with nextMessageUptime := llongMax }.dispatch result callbacks

/-- A handler has returned. -/
def handled (s : Looper) (callbacks : Bool) : Looper :=
  { s with sendingMessage := false }.dispatch .callback callbacks

/-- What can happen. -/
inductive Action where
  | tick (nanos : Nat)
  | sendMessageAtTime (envelope : MessageEnvelope)
  | issueWake
  | wake
  | removeMessages (handler : Nat) (what : Option Int)
  | scheduleEpollRebuild
  | pollInner (timeoutMillis : Int)
  | epollReturns (epoll : EpollResult)
  | handlerReturns
  deriving DecidableEq, Repr

/-- One step. The arguments are of the types of the source: the uptime is an `nsecs_t` and the
timeout an `int`. -/
def step (s : Looper) : Action → Option Looper
  | .tick nanos => some { s with clock := s.clock + nanos }
  | .sendMessageAtTime envelope =>
    if -llongMax - 1 ≤ envelope.uptime ∧ envelope.uptime ≤ llongMax then
      some (s.sendMessageAtTime envelope)
    else none
  | .issueWake =>
    if s.pendingWakes = 0 then none
    else some { s with pendingWakes := s.pendingWakes - 1 }.wake
  | .wake => some s.wake
  | .removeMessages handler what => some (s.removeMessages handler what)
  | .scheduleEpollRebuild => some s.scheduleEpollRebuildLocked
  | .pollInner timeoutMillis =>
    match s.phase with
    | .idle =>
      if -intMax - 1 ≤ timeoutMillis ∧ timeoutMillis ≤ intMax then
        some (s.pollInner timeoutMillis)
      else none
    | _ => none
  | .epollReturns epoll =>
    match s.phase with
    | .waiting _ _ => some (s.polled epoll)
    | _ => none
  | .handlerReturns =>
    match s.phase with
    | .handling callbacks => some (s.handled callbacks)
    | _ => none

end Looper

end AndroidCore.Libutils
