import Mathlib.Logic.Basic

/-!
# `AndroidCore.Audio.AudioSource`: one source of audio and its connections

The model of `AudioSource.cpp`. A client asks for a connection to be started or stopped. The
calls, and the events of the audio management, become tasks of one worker thread, which takes
them in their order. At most one connection is requested at a time; further requests wait in
`m_RequestQueue` and are started again when the request before them is decided.

* Connections are known by their names. The empty name stands for no connection, as in the
  source.
* `accepted` in a step of the worker is what `changeConnectionStatus` returns.
* A task tells if it comes from a client or from `m_RequestQueue`. `everQueued`, `halted` and
  `delivered` record what has happened: the connections that were ever in that queue, the
  connections that were stopped with no call of `start` after the call of `stop`, and the
  callbacks. No function reads them.
* `m_PlayStatus`, `m_ConnectionStates` and the availability of the source are left out: nothing
  below reads them.
-/

namespace AndroidCore.Audio

/-- A string, as the list of its characters. -/
abbrev Str := List Char

/-- `rsiapi::AudioStatus`. -/
inductive AudioStatus where
  | undefined
  | muted
  | readyToFade
  | fadedIn
  deriving DecidableEq, Repr

/-- `rsiapi::ConnectionStatus`. -/
inductive ConnectionStatus where
  | paused
  | started
  | stopped
  deriving DecidableEq, Repr

/-- The functions of a listener. -/
inductive Callback where
  | started
  | stopped
  | startFailed
  | onAudioConnectionMuted
  deriving DecidableEq, Repr

/-- What the worker thread has to do. -/
inductive Task where
  | processStart (connection : Str) (client : Bool)
  | processStop (connection : Str)
  | processAudioStateChange (status : AudioStatus)
  | processConnectionStateChange (connection : Str) (status : ConnectionStatus)
  | doCallback (connection : Str) (callback : Callback)
  deriving DecidableEq, Repr

/-- `AudioSource`. -/
structure AudioSource where
  useAudioManagement : Bool
  tasks : List Task
  listeners : List (Str × Nat)
  requestedConnection : Str
  requestQueue : List Str
  activeConnection : Str
  audioStatus : AudioStatus
  everQueued : List Str
  halted : List Str
  delivered : List (Callback × Str × Nat)
  deriving DecidableEq, Repr

namespace AudioSource

/-- The constructor. -/
def new (useAudioManagement : Bool) : AudioSource where
  useAudioManagement := useAudioManagement
  tasks := []
  listeners := []
  requestedConnection := []
  requestQueue := []
  activeConnection := []
  audioStatus := .undefined
  everQueued := []
  halted := []
  delivered := []

/-- `m_WorkerThread->push`. -/
def push (s : AudioSource) (task : Task) : AudioSource := { s with tasks := s.tasks ++ [task] }

/-- `doCallback`: the listeners of the connection are called. -/
def doCallback (s : AudioSource) (connection : Str) (callback : Callback) : AudioSource :=
  { s with
    delivered := s.delivered ++
      (s.listeners.filter fun l => l.1 = connection).map fun l => (callback, l.1, l.2) }

/-- `start`; `client` tells who calls it. -/
def start (s : AudioSource) (connection : Str) (client : Bool) : AudioSource :=
  if s.useAudioManagement then s.push (.processStart connection client)
  else s.push (.doCallback connection .started)

/-- `stop`. -/
def stop (s : AudioSource) (connection : Str) : AudioSource :=
  if s.useAudioManagement then s.push (.processStop connection)
  else s.push (.doCallback connection .stopped)

/-- `registerListener`; a null listener is `none`. -/
def registerListener (s : AudioSource) (connection : Str) : Option Nat → AudioSource × Bool
  | none => (s, false)
  | some listener =>
    if connection = [] then (s, false)
    else ({ s with listeners := (connection, listener) :: s.listeners }, true)

/-- `cancelListenerRegistration`. -/
def cancelListenerRegistration (s : AudioSource) (connection : Str) (listener : Nat) :
    AudioSource :=
  { s with listeners := s.listeners.filter fun l => l ≠ (connection, listener) }

/-- The next request of `m_RequestQueue` is started. -/
def startNext (s : AudioSource) : AudioSource :=
  match s.requestQueue with
  | [] => s
  | next :: rest => { s.start next false with requestQueue := rest }

/-- `processStart`. -/
def processStart (s : AudioSource) (connection : Str) (accepted : Bool) : AudioSource :=
  if s.requestedConnection ≠ [] then
    { s with
      requestQueue := s.requestQueue ++ [connection]
      everQueued := s.everQueued ++ [connection] }
  else if accepted then { s with requestedConnection := connection }
  else s.doCallback connection .startFailed

/-- The client has called `start` for the connection after the call of `stop` that is being
processed: tasks are taken in their order, so the call still waits. -/
def startedAgain (s : AudioSource) (connection : Str) : Prop :=
  .processStart connection true ∈ s.tasks

instance (s : AudioSource) (connection : Str) : Decidable (s.startedAgain connection) :=
  inferInstanceAs (Decidable (_ ∈ _))

/-- `stopped()` is delivered. -/
def deliverStopped (s : AudioSource) (connection : Str) : AudioSource :=
  { s.doCallback connection .stopped with
    halted := if s.startedAgain connection then s.halted else connection :: s.halted }

/-- `processStop`. Whether `changeConnectionStatus` fails is only logged. -/
def processStop (s : AudioSource) (connection : Str) : AudioSource :=
  if connection = s.activeConnection then
    if s.audioStatus = .muted then { s.deliverStopped connection with activeConnection := [] }
    else s
  else s.deliverStopped connection

/-- The requested connection becomes the active one. -/
def activate (s : AudioSource) : AudioSource :=
  ({ s with
    activeConnection := s.requestedConnection
    requestedConnection := [] }.doCallback s.requestedConnection .started).startNext

/-- `processAudioStateChange`. -/
def processAudioStateChange (s : AudioSource) (newStatus : AudioStatus) : AudioSource :=
  let oldStatus := s.audioStatus
  let s := { s with audioStatus := newStatus }
  match newStatus with
  | .muted =>
    if s.activeConnection ≠ [] then
      { s.doCallback s.activeConnection .onAudioConnectionMuted with activeConnection := [] }
    else s
  | .readyToFade =>
    if s.activeConnection = [] ∧ s.requestedConnection ≠ [] ∧ oldStatus = .muted then s.activate
    else s
  | _ => s

/-- `processConenctionStateChange`. -/
def processConnectionStateChange (s : AudioSource) (connection : Str)
    (newStatus : ConnectionStatus) : AudioSource :=
  if newStatus = .stopped ∧ s.activeConnection = [] ∧ connection = s.requestedConnection then
    ({ s.doCallback s.requestedConnection .startFailed with requestedConnection := [] }).startNext
  else s

/-- The worker runs a task. -/
def runTask (s : AudioSource) (accepted : Bool) : Task → AudioSource
  | .processStart connection _ => s.processStart connection accepted
  | .processStop connection => s.processStop connection
  | .processAudioStateChange status => s.processAudioStateChange status
  | .processConnectionStateChange connection status =>
    s.processConnectionStateChange connection status
  | .doCallback connection callback => s.doCallback connection callback

/-- What can happen: the calls of clients and of the audio management, and the steps of the
worker. -/
inductive Action where
  | start (connection : Str)
  | stop (connection : Str)
  | onAudioStatusChanged (status : AudioStatus)
  | onAudioConnectionStatusChanged (connection : Str) (status : ConnectionStatus)
  | registerListener (connection : Str) (listener : Option Nat)
  | cancelListenerRegistration (connection : Str) (listener : Nat)
  | work (accepted : Bool)
  deriving DecidableEq, Repr

/-- One step; the worker needs a task. -/
def step (s : AudioSource) : Action → Option AudioSource
  | .start connection =>
    some { s.start connection true with halted := s.halted.filter (· ≠ connection) }
  | .stop connection => some (s.stop connection)
  | .onAudioStatusChanged status => some (s.push (.processAudioStateChange status))
  | .onAudioConnectionStatusChanged connection status =>
    some (s.push (.processConnectionStateChange connection status))
  | .registerListener connection listener => some (s.registerListener connection listener).1
  | .cancelListenerRegistration connection listener =>
    some (s.cancelListenerRegistration connection listener)
  | .work accepted =>
    match s.tasks with
    | [] => none
    | task :: rest => some ({ s with tasks := rest }.runTask accepted task)

end AudioSource

end AndroidCore.Audio
