import Mathlib.Tactic.Ring

/-!
# `AndroidCore.Adb.LocalSocket`: the descriptor side of a local socket

The part of `sockets.cpp` that writes to the descriptor of a local socket: the loops of
`local_socket_enqueue` and of the writable half of `local_socket_event_func`, and the end of
`local_socket_close`. What these do with the peer of the socket is not part of this module:
they return how they ended, and the caller goes on from there.

* A packet is the bytes from its `ptr` on, so that `p->ptr += r; p->len -= r` drops bytes
  from its front. The queue from `pkt_first` to `pkt_last` is a list of packets.
* The kernel answers every `adb_write` with a `WriteResult`. A call gets a list of them, one
  for each write, and the descriptor would block behind the last one.
* `written` are the bytes that the kernel has taken so far.
-/

namespace AndroidCore.Adb

/-- What `adb_write` returns: it takes `n + 1` bytes or all of them, it would block
(`EAGAIN`), or it fails. A return value of 0 is treated as a failure by both loops. -/
inductive WriteResult where
  | wrote (n : Nat)
  | again
  | failed
  deriving DecidableEq, Repr

/-- How a loop of writes ends: the packet is written, the descriptor would block, or a write
has failed. -/
inductive WriteEnd where
  | done
  | blocked
  | failed
  deriving DecidableEq, Repr

/-- The outcome of a loop of writes: the bytes written, the rest of the packet, and the results
that are left. -/
structure WriteOutcome where
  written : List UInt8
  rest : List UInt8
  how : WriteEnd
  results : List WriteResult
  deriving DecidableEq, Repr

/-- `while (p->len > 0)`: writes of one packet. -/
def writeLoop : List WriteResult → List UInt8 → WriteOutcome
  | results, [] => ⟨[], [], .done, results⟩
  | [], p => ⟨[], p, .blocked, []⟩
  | .wrote n :: results, p =>
    let o := writeLoop results (p.drop (n + 1))
    { o with written := p.take (n + 1) ++ o.written }
  | .again :: results, p => ⟨[], p, .blocked, results⟩
  | .failed :: results, p => ⟨[], p, .failed, results⟩

/-- The fields of an `asocket` that belong to its descriptor. -/
structure LocalSocket where
  closing : Bool
  hasWriteError : Bool
  fdeRead : Bool
  fdeWrite : Bool
  pktQueue : List (List UInt8)
  written : List UInt8
  deriving DecidableEq, Repr

namespace LocalSocket

/-- A socket made by `create_local_socket`. -/
def new : LocalSocket where
  closing := false
  hasWriteError := false
  fdeRead := false
  fdeWrite := false
  pktQueue := []
  written := []

/-- How `local_socket_enqueue` ends. It returns 0 in the first case and 1 in the others, and
in the last one it closes the socket. -/
inductive Enqueued where
  | ready
  | backlog
  | failed
  deriving DecidableEq, Repr

/-- The label `enqueue`: the packet goes to the end of the queue. -/
def push (s : LocalSocket) (p : List UInt8) : LocalSocket :=
  { s with pktQueue := s.pktQueue ++ [p], fdeWrite := true }

/-- `local_socket_enqueue`, up to the call of `close`. -/
def enqueue (s : LocalSocket) (p : List UInt8) (results : List WriteResult) :
    LocalSocket × Enqueued :=
  -- if there is already data queued, just add this to the tail
  if s.pktQueue ≠ [] then (s.push p, .backlog)
  else
    let o := writeLoop results p
    let s := { s with written := s.written ++ o.written }
    match o.how with
    | .done => (s, .ready)
    | .blocked => (s.push o.rest, .backlog)
    | .failed => ({ s with hasWriteError := true }, .failed)

/-- The loop over the queue of the writable half of `local_socket_event_func`. -/
def drainLoop : List WriteResult → List (List UInt8) → List UInt8 × List (List UInt8) × WriteEnd
  | _, [] => ([], [], .done)
  | results, p :: queue =>
    let o := writeLoop results p
    match o.how with
    | .done =>
      let (written, queue, how) := drainLoop o.results queue
      (o.written ++ written, queue, how)
    | how => (o.written, o.rest :: queue, how)

/-- The writable half of `local_socket_event_func`, up to the calls of `close` and of the peer.
When everything is written, a socket that is not closing ignores writable events again. -/
def drain (s : LocalSocket) (results : List WriteResult) : LocalSocket × WriteEnd :=
  let (written, queue, how) := drainLoop results s.pktQueue
  let s := { s with written := s.written ++ written, pktQueue := queue }
  match how with
  | .done => (if s.closing then s else { s with fdeWrite := false }, .done)
  | .blocked => (s, .blocked)
  | .failed => ({ s with hasWriteError := true }, .failed)

/-- `local_socket_close` destroys the socket immediately: it is already closing, a write has
failed, or there are no pending packets. -/
def closesNow (s : LocalSocket) : Bool := s.closing ∨ s.hasWriteError ∨ s.pktQueue = []

/-- Otherwise it is put on the closing list. -/
def startClosing (s : LocalSocket) : LocalSocket := { s with closing := true, fdeRead := false }

end LocalSocket

/-! ### The life of one socket -/

/-- What happens to a socket: its peer hands it a packet, its descriptor is writable, or it is
closed. -/
inductive SocketEvent where
  | enqueue (p : List UInt8) (results : List WriteResult)
  | writable (results : List WriteResult)
  | close
  deriving DecidableEq, Repr

/-- A socket, whether it has been destroyed, and the payloads it was handed before that. -/
structure Delivery where
  sock : LocalSocket
  destroyed : Bool
  enqueued : List UInt8
  deriving DecidableEq, Repr

namespace Delivery

/-- A new socket. -/
def new : Delivery := ⟨.new, false, []⟩

/-- The end of `local_socket_close`. -/
def close (d : Delivery) : Delivery :=
  if d.sock.closesNow then { d with destroyed := true }
  else { d with sock := d.sock.startClosing }

/-- One event. There are no events after the socket has been destroyed, and no writable events
while it ignores them. -/
def step (d : Delivery) : SocketEvent → Delivery
  | .enqueue p results =>
    if d.destroyed then d
    else
      let (sock, result) := d.sock.enqueue p results
      let d := { d with sock, enqueued := d.enqueued ++ p }
      if result = .failed then d.close else d
  | .writable results =>
    if d.destroyed ∨ d.sock.fdeWrite = false then d
    else
      let (sock, how) := d.sock.drain results
      let d := { d with sock }
      match how with
      | .done => if sock.closing then d.close else d
      | .blocked => d
      | .failed => d.close
  | .close => if d.destroyed then d else d.close

/-- A sequence of events. -/
def run (events : List SocketEvent) : Delivery := events.foldl step new

end Delivery

end AndroidCore.Adb
