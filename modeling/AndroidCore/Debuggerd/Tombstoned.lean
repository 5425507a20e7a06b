import Mathlib.Tactic.Ring

/-!
# `AndroidCore.Debuggerd.Tombstoned`: the daemon that hands out tombstones

The model of `tombstoned.cpp`. A process that crashes connects, sends a request and waits for
a file to write its dump to. Two queues, one for tombstones and one for the traces of `java`
processes, limit the number of dumps at one time. A request that finds its queue at the limit
waits in `queued_requests_`, and a dump that is completed, or that takes too long, lets the
next ones proceed.

* A crash is known by the number of its connection. `requested` are the crashes whose event
  waits for the request, `running` those whose event waits for the end of the dump. The two
  lists are what `libevent` owns.
* `arrived`, `attempted`, `outputs` and `deleted` record what has happened; no function reads
  them.
* A failed `unlinkat` or `openat` of `get_output` ends the process, so there is no state behind
  it. What `InterceptManager` answers and what `send_fd` returns come with the event.
* The end of a dump is the same for the queue whatever is read from the socket then: the
  packet only decides what is logged.
-/

namespace AndroidCore.Debuggerd

/-- A string, as the list of its characters. -/
abbrev Str := List Char

/-- The values of a `size_t`. -/
def sizeSpace : Nat := 2 ^ 64

/-- `DebuggerdDumpType`. -/
inductive DumpType where
  | nativeBacktrace
  | tombstone
  | javaBacktrace
  | anyIntercept
  deriving DecidableEq, Repr

/-- The type with a number; there is none above `kDebuggerdAnyIntercept`. -/
def DumpType.ofByte : Nat → Option DumpType
  | 0 => some nativeBacktrace
  | 1 => some tombstone
  | 2 => some javaBacktrace
  | 3 => some anyIntercept
  | _ => none

/-- `CrashPacketType::kDumpRequest`. -/
def kDumpRequest : Nat := 0

/-- `TombstonedCrashPacket`, as bytes and an `int32_t`. -/
structure CrashPacket where
  packetType : Nat
  dumpType : Nat
  pid : Int
  deriving DecidableEq, Repr

/-- `Crash`. -/
structure Crash where
  id : Nat
  crashPid : Int
  crashPath : Str
  crashType : DumpType
  deriving DecidableEq, Repr

/-- `new Crash()`. -/
def Crash.new (id : Nat) : Crash where
  id := id
  crashPid := 0
  crashPath := []
  crashType := .nativeBacktrace

/-! ### `CrashQueue` -/

/-- What a queue is made with. `check` is the `CHECK` of the constructor. The number of
artifacts comes from an `int` property, and `next_artifact_` is an `int` as well. -/
structure QueueConfig where
  dirPath : Str
  fileNamePrefix : Str
  maxArtifacts : Nat
  maxConcurrentDumps : Nat
  check : maxConcurrentDumps < maxArtifacts
  fits : maxArtifacts < 2 ^ 31

theorem QueueConfig.lt_sizeSpace (config : QueueConfig) : config.maxArtifacts < sizeSpace :=
  Nat.lt_trans config.fits (by decide)

/-- `CrashQueue`. -/
structure CrashQueue where
  config : QueueConfig
  nextArtifact : Nat
  numConcurrentDumps : Nat
  queuedRequests : List Crash

namespace CrashQueue

/-- The result of `stat`. -/
inductive Stat where
  | mtime (seconds : Int)
  | notFound
  | error
  deriving DecidableEq, Repr

/-- The largest `time_t`. -/
def maxTime : Int := 2 ^ 63 - 1

/-- The loop of `find_oldest_artifact` over the files that are left. -/
def oldestOf (stat : Nat → Stat) : List Nat → Nat → Int → Nat
  | [], oldest, _ => oldest
  | i :: rest, oldest, time =>
    match stat i with
    | .notFound => i
    | .error => oldestOf stat rest oldest time
    | .mtime t => if t < time then oldestOf stat rest i t else oldestOf stat rest oldest time

/-- `find_oldest_artifact`. -/
def findOldestArtifact (stat : Nat → Stat) (maxArtifacts : Nat) : Nat :=
  oldestOf stat (List.range maxArtifacts) 0 maxTime

/-- The constructor. -/
def new (config : QueueConfig) (stat : Nat → Stat) : CrashQueue where
  config := config
  nextArtifact := findOldestArtifact stat config.maxArtifacts
  numConcurrentDumps := 0
  queuedRequests := []

/-- `"%02d"`. -/
def twoDigits (n : Nat) : Str :=
  if n < 10 then '0' :: Nat.toDigits 10 n else Nat.toDigits 10 n

/-- The path of an artifact. -/
def path (config : QueueConfig) (artifact : Nat) : Str :=
  config.dirPath ++ '/' :: (config.fileNamePrefix ++ twoDigits artifact)

/-- `get_output`: the path, and the queue behind it. -/
def getOutput (q : CrashQueue) : Str × CrashQueue :=
  (path q.config q.nextArtifact,
    { q with nextArtifact := (q.nextArtifact + 1) % q.config.maxArtifacts })

/-- `on_crash_started`. -/
def onCrashStarted (q : CrashQueue) : CrashQueue :=
  { q with numConcurrentDumps := (q.numConcurrentDumps + 1) % sizeSpace }

/-- `on_crash_completed`. -/
def onCrashCompleted (q : CrashQueue) : CrashQueue :=
  { q with numConcurrentDumps := (q.numConcurrentDumps + (sizeSpace - 1)) % sizeSpace }

/-- `maybe_enqueue_crash`; `none` when the crash is not queued. -/
def maybeEnqueueCrash (q : CrashQueue) (crash : Crash) : Option CrashQueue :=
  if q.numConcurrentDumps = q.config.maxConcurrentDumps then
    some { q with queuedRequests := q.queuedRequests ++ [crash] }
  else none

end CrashQueue

/-! ### The daemon -/

/-- The two queues. -/
inductive QueueKind where
  | tombstones
  | anrs
  deriving DecidableEq, Repr

/-- `CrashQueue::for_crash`. -/
def Crash.queue (crash : Crash) : QueueKind :=
  if crash.crashType = .javaBacktrace then .anrs else .tombstones

/-- The state of the daemon. -/
structure Tombstoned where
  queues : QueueKind → CrashQueue
  accepted : Nat
  requested : List Crash
  running : List Crash
  arrived : List (QueueKind × Nat)
  attempted : List (QueueKind × Nat)
  outputs : List (QueueKind × Nat)
  deleted : List Nat

/-- What `send_fd` returns: all bytes were sent, or fewer, or there was an error. -/
inductive SendResult where
  | complete
  | short
  | error
  deriving DecidableEq, Repr

/-- What `perform_request` meets: whether there is an intercept for the crash, and the result
of `send_fd`. -/
structure Attempt where
  intercepted : Bool
  sent : SendResult
  deriving DecidableEq, Repr

/-- What `crash_request_cb` meets: its event, the packet if all of it can be read, and the pid
that `SO_PEERCRED` gives. -/
structure RequestInput where
  timeout : Bool
  readable : Bool
  packet : Option CrashPacket
  peer : Option Int
  deriving DecidableEq, Repr

namespace Tombstoned

/-- The start of `main`. -/
def new (config : QueueKind → QueueConfig) (stat : QueueKind → Nat → CrashQueue.Stat) :
    Tombstoned where
  queues kind := CrashQueue.new (config kind) (stat kind)
  accepted := 0
  requested := []
  running := []
  arrived := []
  attempted := []
  outputs := []
  deleted := []

/-- A queue changes. -/
def setQueue (t : Tombstoned) (kind : QueueKind) (q : CrashQueue) : Tombstoned :=
  { t with queues := Function.update t.queues kind q }

/-- `delete crash`. -/
def delete (t : Tombstoned) (crash : Crash) : Tombstoned :=
  { t with deleted := t.deleted ++ [crash.id] }

/-- The part of `perform_request` that finds an output for the crash. -/
def findOutput (t : Tombstoned) (attempt : Attempt) (crash : Crash) : Crash × Tombstoned :=
  if attempt.intercepted then (crash, t)
  else
    let output := (t.queues crash.queue).getOutput
    ({ crash with crashPath := output.1 },
      { t.setQueue crash.queue output.2 with
        outputs := t.outputs ++ [(crash.queue, crash.id)] })

/-- `perform_request`. -/
def performRequest (t : Tombstoned) (attempt : Attempt) (crash : Crash) : Tombstoned :=
  let t := { t with attempted := t.attempted ++ [(crash.queue, crash.id)] }
  let (crash, t) := t.findOutput attempt crash
  if attempt.sent = .complete then
    { t.setQueue crash.queue (t.queues crash.queue).onCrashStarted with
      running := t.running ++ [crash] }
  else t.delete crash

/-- The loop of `maybe_dequeue_crashes`. Each round takes one request from the queue, so their
number bounds it; `attempts` are what the rounds meet. -/
def dequeueLoop (kind : QueueKind) : Nat → (Nat → Attempt) → Tombstoned → Tombstoned
  | 0, _, t => t
  | n + 1, attempts, t =>
    match (t.queues kind).queuedRequests with
    | [] => t
    | next :: rest =>
      if (t.queues kind).numConcurrentDumps < (t.queues kind).config.maxConcurrentDumps then
        let t := t.setQueue kind { t.queues kind with queuedRequests := rest }
        dequeueLoop kind n (fun i => attempts (i + 1)) (t.performRequest (attempts 0) next)
      else t

/-- `maybe_dequeue_crashes`, with `perform_request` as its handler. -/
def maybeDequeueCrashes (t : Tombstoned) (kind : QueueKind) (attempts : Nat → Attempt) :
    Tombstoned :=
  dequeueLoop kind (t.queues kind).queuedRequests.length attempts t

/-- `crash_accept_cb`. -/
def crashAcceptCb (t : Tombstoned) : Tombstoned :=
  { t with accepted := t.accepted + 1, requested := t.requested ++ [Crash.new t.accepted] }

/-- The pid of a crash. Requests for `java` traces come from processes that are not trusted, so
the kernel is asked for it. -/
def requestPid (type : DumpType) (request : CrashPacket) (input : RequestInput) : Option Int :=
  if type = .javaBacktrace then input.peer else some request.pid

/-- The checks of `crash_request_cb`: the crash with the type and the pid of the request. -/
def readRequest (crash : Crash) (input : RequestInput) : Option Crash := do
  guard (input.timeout = false)
  guard (input.readable = true)
  let request ← input.packet
  guard (request.packetType = kDumpRequest)
  let type ← DumpType.ofByte request.dumpType
  let pid ← requestPid type request input
  return { crash with crashType := type, crashPid := pid }

/-- `crash_request_cb`. -/
def crashRequestCb (t : Tombstoned) (crash : Crash) (input : RequestInput) (attempt : Attempt) :
    Tombstoned :=
  let t := { t with requested := t.requested.erase crash }
  match readRequest crash input with
  | none => t.delete crash
  | some crash =>
    let t := { t with arrived := t.arrived ++ [(crash.queue, crash.id)] }
    match (t.queues crash.queue).maybeEnqueueCrash crash with
    | some q => t.setQueue crash.queue q
    | none => t.performRequest attempt crash

/-- `crash_completed_cb`. -/
def crashCompletedCb (t : Tombstoned) (crash : Crash) (attempts : Nat → Attempt) : Tombstoned :=
  let t := { t with running := t.running.erase crash }
  let t := t.setQueue crash.queue (t.queues crash.queue).onCrashCompleted
  (t.delete crash).maybeDequeueCrashes crash.queue attempts

/-- What `libevent` delivers. -/
inductive Event where
  | accept
  | request (id : Nat) (input : RequestInput) (attempt : Attempt)
  | completed (id : Nat) (attempts : Nat → Attempt)

/-- One event; only the events that are waited for can come. -/
def step (t : Tombstoned) : Event → Option Tombstoned
  | .accept => some t.crashAcceptCb
  | .request id input attempt =>
    (t.requested.find? (·.id = id)).map fun crash => t.crashRequestCb crash input attempt
  | .completed id attempts =>
    (t.running.find? (·.id = id)).map fun crash => t.crashCompletedCb crash attempts

end Tombstoned

end AndroidCore.Debuggerd
