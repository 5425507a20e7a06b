import AndroidCore.Adb.Sockets

/-!
# `AndroidCore.Adb.Stream`: a local socket and its remote peer

One stream between a descriptor and the other side of a transport: what `handle_packet`,
`local_socket_event_func` and the functions of the remote socket do to a local socket whose
peer is a remote one. The other side is any sequence of `StreamEvent`s.

The stream keeps its history, the newest entry first: packets that were accepted and packets
that were sent, the bytes that the kernel has taken, and the close.
-/

namespace AndroidCore.Adb

/-- What happens on a stream: an `A_WRTE` is accepted, bytes are written to the descriptor,
`A_OKAY` or `A_WRTE` is sent, an `A_OKAY` arrives, or the stream is closed. -/
inductive Entry where
  | accepted (p : List UInt8)
  | wrote (bytes : List UInt8)
  | sentOkay
  | sentWrte (p : List UInt8)
  | gotOkay
  | closed
  deriving DecidableEq, Repr

/-- A history, the newest entry first. -/
abbrev History := List Entry

namespace History

/-- The number of `A_WRTE` packets that were accepted. -/
def accepts : History → Nat
  | [] => 0
  | .accepted _ :: past => accepts past + 1
  | _ :: past => accepts past

/-- Their payloads. -/
def payloads : History → List UInt8
  | [] => []
  | .accepted p :: past => payloads past ++ p
  | _ :: past => payloads past

/-- The bytes that were written. -/
def written : History → List UInt8
  | [] => []
  | .wrote bytes :: past => written past ++ bytes
  | _ :: past => written past

/-- The number of `A_OKAY` packets that were sent. -/
def okays : History → Nat
  | [] => 0
  | .sentOkay :: past => okays past + 1
  | _ :: past => okays past

/-- There was no `A_WRTE` sent yet, or an `A_OKAY` has arrived behind the last one. -/
def answered : History → Bool
  | [] => true
  | .gotOkay :: _ => true
  | .sentWrte _ :: _ => false
  | _ :: past => answered past

end History

/-- A stream: its local socket, whether this still has its peer, whether it has been
destroyed, and the history. -/
structure Stream where
  sock : LocalSocket
  connected : Bool
  destroyed : Bool
  history : History
  deriving DecidableEq, Repr

/-- What the other side and the kernel do: `A_WRTE` (with the results of the writes), `A_OKAY`
and `A_CLSE` packets, and events of the descriptor. A transport that disconnects is the same
as `A_CLSE` for the stream. -/
inductive StreamEvent where
  | wrte (p : List UInt8) (results : List WriteResult)
  | okay
  | clse
  | fd (ev : Server.FdEvent)

namespace Stream

/-- A stream behind `A_OPEN` or the first `A_OKAY`: the local socket is ready for data. -/
def opened : Stream where
  sock := { LocalSocket.new with fdeRead := true }
  connected := true
  destroyed := false
  history := []

/-- An entry is added to the history. -/
def note (st : Stream) (e : Entry) : Stream := { st with history := e :: st.history }

/-- The local socket is replaced, and the bytes it has written are noted. -/
def noteWritten (st : Stream) (sock : LocalSocket) : Stream :=
  { st with sock }.note (.wrote (sock.written.drop st.sock.written.length))

/-- `local_socket_close`. -/
def close (st : Stream) : Stream :=
  let st := if st.connected then { st with connected := false }.note .closed else st
  if st.sock.closesNow then { st with destroyed := true }
  else { st with sock := st.sock.startClosing }

/-- The case `A_WRTE` of `handle_packet`: when everything is written, it is acknowledged at
once. -/
def handleWrte (st : Stream) (p : List UInt8) (results : List WriteResult) : Stream :=
  let (sock, result) := st.sock.enqueue p results
  let st := (st.note (.accepted p)).noteWritten sock
  match result with
  | .ready => st.note .sentOkay
  | .backlog => st
  | .failed => st.close

/-- The case `A_OKAY` of `handle_packet`: `local_socket_ready`. -/
def handleOkay (st : Stream) : Stream :=
  { st with sock := { st.sock with fdeRead := true } }.note .gotOkay

/-- The writable half of `local_socket_event_func`. The flag says whether the handler goes on:
then everything is written, and the remote socket has sent `A_OKAY`. -/
def eventWrite (st : Stream) (results : List WriteResult) : Stream × Bool :=
  let (sock, how) := st.sock.drain results
  let st := st.noteWritten sock
  match how with
  | .blocked => (st, false)
  | .failed => (st.close, false)
  | .done => if sock.closing then (st.close, false) else (st.note .sentOkay, true)

/-- The readable half of `local_socket_event_func`: the remote socket sends `A_WRTE` and
returns 1, so that readable events are ignored until `A_OKAY` arrives. -/
def eventRead (payload : Nat) (st : Stream) (ev : Server.FdEvent) : Stream :=
  let data := ev.data.take payload
  let eof := ev.eof && data.length < payload
  let (st, r) : Stream × Int :=
    if st.connected = true ∧ data ≠ [] then
      ({ st with sock := { st.sock with fdeRead := false } }.note (.sentWrte data), 1)
    else (st, if payload = 0 then 0 else -1)
  if (ev.forceEof ∧ r = 0) ∨ eof then st.close else st

/-- The writable half, when the descriptor is writable. -/
def writeHalf (st : Stream) (ev : Server.FdEvent) : Stream × Bool :=
  if ev.write then st.eventWrite ev.results else (st, true)

/-- `local_socket_event_func`. -/
def eventFunc (payload : Nat) (st : Stream) (ev : Server.FdEvent) : Stream :=
  let (st, goOn) := st.writeHalf ev
  if ev.read ∧ goOn then st.eventRead payload ev else st

/-- One event. Packets are for connected streams. `poll` reports a writable descriptor only
while `FDE_WRITE` is set, but a hang-up or an error as a readable one at any time. -/
def step (payload : Nat) (st : Stream) : StreamEvent → Stream
  | .wrte p results => if st.connected then st.handleWrte p results else st
  | .okay => if st.connected then st.handleOkay else st
  | .clse => if st.connected then st.close else st
  | .fd ev =>
    if st.destroyed ∨ (ev.write ∧ st.sock.fdeWrite = false) then st else st.eventFunc payload ev

/-- A sequence of events. -/
def run (payload : Nat) (events : List StreamEvent) : Stream :=
  events.foldl (step payload) opened

end Stream

end AndroidCore.Adb
