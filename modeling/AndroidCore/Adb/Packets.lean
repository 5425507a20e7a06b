import AndroidCore.Adb.Sockets

/-!
# `AndroidCore.Adb.Packets`: packets from the transports

The model of `handle_packet` in `adb.cpp`, as the host builds it, and of the events that
drive the server: packets, descriptor events, new clients, transports that disconnect, and
lists of devices for the clients that track them. `update_transports` is one event of the last
kind for each tracker: what it does for one does not touch another.

`packetTarget` is the part of the cases `A_OKAY`, `A_CLSE` and `A_WRTE` that looks for the
socket a packet is for and decides what is done to it. The texts of the connection banner and
the answer to an authentication request are arguments.
-/

namespace AndroidCore.Adb

/-- What `handle_packet` does to the socket that a packet is for: it creates the connection on
the first `A_OKAY`, or calls `ready`, `close` or `enqueue`. -/
inductive PacketCall where
  | connect
  | ready
  | close
  | enqueue
  deriving DecidableEq, Repr

/-- What a packet meets: whether the service of `A_OPEN` can be started, the results of writes,
the packet that `send_connect` makes, and the one that `send_auth_response` makes. -/
structure PacketEnv where
  service : Bool
  results : List WriteResult
  connect : Packet
  authResponse : Packet

namespace Server

/-- The socket that a packet on the transport `t` is for, and what is done to it. -/
def packetTarget (a : Server) (p : Packet) (t : TransportPtr) :
    Except Fault (Option (Ptr × PacketCall)) :=
  match p.command with
  | .okay =>
    if (a.transports t).online ∧ p.arg0 ≠ 0 ∧ p.arg1 ≠ 0 then do
      let found ← a.findLocalSocket p.arg1 0
      found.elim (.ok none) fun s => do
        let x ← a.get s
        -- on the first READY message, create the connection
        x.peer.elim (.ok (some (s, .connect))) fun _ => do
          -- other READY messages must use the same local-id
          let same ← a.hasPeerId s p.arg0
          return if same then some (s, .ready) else none
    else .ok none
  | .clse =>
    if (a.transports t).online ∧ p.arg1 ≠ 0 then do
      let found ← a.findLocalSocket p.arg1 p.arg0
      found.elim (.ok none) fun s => do
        let x ← a.get s
        x.peer.elim (.ok (some (s, .close))) fun q => do
          let y ← a.get q
          return if p.arg0 = 0 ∧ y.transport ≠ some t then none else some (s, .close)
    else .ok none
  | .wrte =>
    if (a.transports t).online ∧ p.arg0 ≠ 0 ∧ p.arg1 ≠ 0 then do
      let found ← a.findLocalSocket p.arg1 p.arg0
      return found.map fun s => (s, .enqueue)
    else .ok none
  | _ => .ok none

/-- What is done to the socket. -/
def performCall (a : Server) (p : Packet) (t : TransportPtr) (env : PacketEnv) (s : Ptr) :
    PacketCall → Except Fault Server
  | .connect => do
      let (a, r) ← a.createRemoteSocket p.arg0 t
      let a ← a.modify s fun x => { x with peer := some r }
      let a ← a.modify r fun y => { y with peer := some s }
      a.ready s
  | .ready => a.ready s
  | .close => a.closeSocket s
  | .enqueue => do
      let (a, r) ← a.localSocketEnqueue s p.data env.results
      if r = 0 then do
        let x ← a.get s
        return a.sendPacket t ⟨.okay, x.id, p.arg0, []⟩
      else return a

/-- A field of a transport is set. -/
def setTransport (a : Server) (t : TransportPtr) (f : Transport → Transport) : Server :=
  { a with transports := Function.update a.transports t (f (a.transports t)) }

/-- `handle_offline`. -/
def handleOffline (a : Server) (t : TransportPtr) : Except Fault Server :=
  (a.setTransport t fun x => { x with online := false }).closeAllSockets t

/-- `SetConnectionState(kCsOffline)`, and `handle_offline`. -/
def goOffline (a : Server) (t : TransportPtr) : Except Fault Server :=
  (a.setTransport t fun x => { x with offline := true }).handleOffline t

/-- `handle_new_connection`. The banner sets one of the states other than `kCsOffline`. -/
def handleNewConnection (a : Server) (t : TransportPtr) (p : Packet) : Except Fault Server := do
  let a ← if (a.transports t).offline then .ok a else a.goOffline t
  return a.setTransport t fun _ =>
    { online := true, offline := false, maxPayload := min p.arg1 maxPayload }

/-- `ADB_AUTH_TOKEN`. -/
def adbAuthToken : Nat := 1

/-- The case `A_OPEN` of `handle_packet`. -/
def handleOpen (a : Server) (p : Packet) (t : TransportPtr) (env : PacketEnv) :
    Except Fault Server :=
  if (a.transports t).online ∧ p.arg0 ≠ 0 ∧ p.arg1 = 0 then
    if !env.service then .ok (a.sendPacket t ⟨.clse, 0, p.arg0, []⟩)
    else do
      let (a, s) ← a.createLocalSocket
      let (a, r) ← a.createRemoteSocket p.arg0 t
      let a ← a.modify s fun x => { x with peer := some r }
      let a ← a.modify r fun y => { y with peer := some s }
      let x ← a.get s
      let a := a.sendPacket t ⟨.okay, x.id, p.arg0, []⟩
      a.ready s
  else .ok a

/-- The case `A_OKAY` of `handle_packet` answers a packet for a socket that is gone. -/
def handleOkay (a : Server) (p : Packet) (t : TransportPtr) : Except Fault Server :=
  if (a.transports t).online ∧ p.arg0 ≠ 0 ∧ p.arg1 ≠ 0 then do
    let found ← a.findLocalSocket p.arg1 0
    return found.elim (a.sendPacket t ⟨.clse, p.arg1, p.arg0, []⟩) fun _ => a
  else .ok a

/-- `handle_packet`. -/
def handlePacket (a : Server) (p : Packet) (t : TransportPtr) (env : PacketEnv) :
    Except Fault Server := do
  let target ← a.packetTarget p t
  match p.command, target with
  | .sync, _ =>
    if p.arg0 ≠ 0 then return (a.sendPacket t p).sendPacket t env.connect
    else do
      let a ← a.goOffline t
      return a.sendPacket t p
  | .cnxn, _ => a.handleNewConnection t p
  | .auth, _ =>
    if p.arg0 = adbAuthToken then
      return (a.setTransport t fun x => { x with offline := false }).sendPacket t
        env.authResponse
    else a.goOffline t
  | .open, _ => a.handleOpen p t env
  | .okay, none => a.handleOkay p t
  | _, some (s, call) => a.performCall p t env s call
  | _, none => return a

/-! ### Runs of the server -/

/-- What happens to the server. -/
inductive Event where
  | packet (p : Packet) (t : TransportPtr) (env : PacketEnv)
  | fdEvent (s : Ptr) (ev : FdEvent)
  | acceptSmart
  | acceptForward (t : TransportPtr) (destination : List UInt8)
  | disconnect (t : TransportPtr)
  | trackerUpdate (s : Ptr) (devices : List UInt8) (results : List WriteResult)

/-- Descriptor events are for local sockets. `poll` reports a writable descriptor only while
`FDE_WRITE` is set, but a hang-up or an error as a readable one at any time. -/
def delivers (a : Server) (s : Ptr) (ev : FdEvent) : Bool :=
  (s ∈ a.localSocketList ∨ s ∈ a.localSocketClosingList) ∧
    (a.heap s).any fun x => !ev.write || x.sock.fdeWrite

/-- One event; a descriptor event that `poll` does not report changes nothing, and neither does
a list for a tracker that is gone. -/
def step (a : Server) : Event → Except Fault Server
  | .packet p t env => a.handlePacket p t env
  | .fdEvent s ev => if a.delivers s ev then a.localSocketEventFunc s ev else .ok a
  | .acceptSmart => a.acceptSmart
  | .acceptForward t destination => a.acceptForward t destination
  | .disconnect t => a.handleOffline t
  | .trackerUpdate s devices results =>
    if (a.heap s).any (·.kind = .tracker) then a.deviceTrackerSend s devices results else .ok a

/-- The server at its start, with its transports. -/
def start (transports : TransportPtr → Transport) : Server where
  heap := fun _ => none
  nextPtr := 0
  localSocketList := []
  localSocketClosingList := []
  localSocketNextId := 1
  transports := transports
  sent := []

/-- A run of the server. -/
def run (transports : TransportPtr → Transport) (events : List Event) : Except Fault Server :=
  events.foldlM step (start transports)

end Server

end AndroidCore.Adb
