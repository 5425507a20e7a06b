import AndroidCore.Adb.LocalSocket

/-!
# `AndroidCore.Adb.Sockets`: the sockets of the adb server

The model of `sockets.cpp`, as the host builds it, with the device trackers of `transport.cpp`.
A socket is a local one with a descriptor, a remote one that stands for a socket on the other
side of a transport, a smart one that reads the request of a client, or a tracker that tells a
client which devices there are. Sockets live on a heap and point to their peers.

* `heap` has the sockets that are allocated. An access to any other pointer is the fault
  `useAfterFree`, and a second `free` is `doubleFree`. Pointers are never used twice, so that
  no such access goes unnoticed.
* The function pointers of a socket follow from its `kind`. A local socket that waits for a
  connection has the two `_notify` hooks instead: its flag `notify` is set, and the hooks
  reset it.
* What other parts of the server answer is an argument: the results of writes, what a read
  returns, what `handle_host_request` says, and whether a service can be started.
* `fatal` is `fatal()` or a failed `CHECK`: the server aborts.
* `device_tracker_list` has no list of its own: it has the trackers on the heap.
-/

namespace AndroidCore.Adb

/-- `MAX_PAYLOAD`. -/
def maxPayload : Nat := 1024 * 1024

/-- An `asocket*`. -/
abbrev Ptr := Nat

/-- An `atransport*`. -/
abbrev TransportPtr := Nat

/-- Which functions `enqueue`, `ready`, `shutdown` and `close` of a socket point to. -/
inductive Kind where
  | local
  | remote
  | smart
  | tracker
  deriving DecidableEq, Repr

/-- A status message to the client: `SendOkay` or `SendFail`. -/
inductive Status where
  | okay
  | fail (reason : String)
  deriving DecidableEq, Repr

/-- `asocket`. `status` are the status messages sent to its descriptor. -/
structure Asocket where
  id : Nat
  kind : Kind
  notify : Bool
  peer : Option Ptr
  transport : Option TransportPtr
  sock : LocalSocket
  status : List Status
  deriving DecidableEq, Repr

/-- The commands of packets. -/
inductive Command where
  | sync | cnxn | auth | open | okay | clse | wrte | unknown
  deriving DecidableEq, Repr

/-- `apacket`: its message, and its data. -/
structure Packet where
  command : Command
  arg0 : Nat
  arg1 : Nat
  data : List UInt8
  deriving DecidableEq, Repr

/-- The fields of an `atransport` that the sockets depend on. `offline` is
`GetConnectionState() == kCsOffline`. -/
structure Transport where
  online : Bool
  offline : Bool
  maxPayload : Nat
  deriving DecidableEq, Repr

/-- The state of the server. -/
structure Server where
  heap : Ptr → Option Asocket
  nextPtr : Ptr
  localSocketList : List Ptr
  localSocketClosingList : List Ptr
  localSocketNextId : Nat
  transports : TransportPtr → Transport
  sent : List (TransportPtr × Packet)

/-- How the server fails. -/
inductive Fault where
  | useAfterFree
  | doubleFree
  | nullPointer
  | fatal
  | tooDeep
  deriving DecidableEq, Repr

namespace Server

/-! ### The heap -/

/-- The socket at a pointer. -/
def get (a : Server) (s : Ptr) : Except Fault Asocket := (a.heap s).elim (.error .useAfterFree) .ok

/-- What a pointer that may be null points to. -/
def follow (p : Option Ptr) : Except Fault Ptr := p.elim (.error .nullPointer) .ok

/-- A socket is overwritten. -/
def set (a : Server) (s : Ptr) (x : Asocket) : Server :=
  { a with heap := Function.update a.heap s (some x) }

/-- Fields of a socket are set. -/
def modify (a : Server) (s : Ptr) (f : Asocket → Asocket) : Except Fault Server := do
  let x ← a.get s
  return a.set s (f x)

/-- `free`. -/
def free (a : Server) (s : Ptr) : Except Fault Server :=
  (a.heap s).elim (.error .doubleFree) fun _ =>
    .ok { a with heap := Function.update a.heap s none }

/-- `calloc`. -/
def alloc (a : Server) (x : Asocket) : Server × Ptr :=
  ({ a with heap := Function.update a.heap a.nextPtr (some x), nextPtr := a.nextPtr + 1 },
    a.nextPtr)

/-- `send_packet`. -/
def sendPacket (a : Server) (t : TransportPtr) (p : Packet) : Server :=
  { a with sent := a.sent ++ [(t, p)] }

/-! ### The lists -/

/-- The loop of `find_local_socket`: the first socket with that id. -/
def findLocalId (a : Server) (localId : Nat) : List Ptr → Except Fault (Option Ptr)
  | [] => .ok none
  | s :: rest => do
      let x ← a.get s
      if x.id = localId then return some s else findLocalId a localId rest

/-- `s->peer && s->peer->id == peer_id`. -/
def hasPeerId (a : Server) (s : Ptr) (peerId : Nat) : Except Fault Bool := do
  let x ← a.get s
  x.peer.elim (.ok false) fun p => do
    let y ← a.get p
    return y.id = peerId

/-- `find_local_socket`. -/
def findLocalSocket (a : Server) (localId peerId : Nat) : Except Fault (Option Ptr) := do
  let found ← a.findLocalId localId a.localSocketList
  found.elim (.ok none) fun s =>
    if peerId = 0 then .ok (some s)
    else do
      let connected ← a.hasPeerId s peerId
      return if connected then some s else none

/-- `create_local_socket`, with `install_local_socket`. -/
def createLocalSocket (a : Server) : Except Fault (Server × Ptr) :=
  let (a, s) := a.alloc ⟨a.localSocketNextId, .local, false, none, none, .new, []⟩
  let a := { a with localSocketNextId := (a.localSocketNextId + 1) % 2 ^ 32 }
  -- socket ids should never be 0
  if a.localSocketNextId = 0 then .error .fatal
  else .ok ({ a with localSocketList := a.localSocketList ++ [s] }, s)

/-- `remove_socket`. -/
def removeSocket (a : Server) (s : Ptr) : Except Fault Server := do
  let x ← a.get s
  if s ∈ a.localSocketList ∨ s ∈ a.localSocketClosingList then
    return { a.set s { x with id := 0 } with
      localSocketList := a.localSocketList.erase s
      localSocketClosingList := a.localSocketClosingList.erase s }
  else return a

/-- `create_remote_socket`. -/
def createRemoteSocket (a : Server) (id : Nat) (t : TransportPtr) : Except Fault (Server × Ptr) :=
  if id = 0 then .error .fatal
  else .ok (a.alloc ⟨id, .remote, false, none, some t, .new, []⟩)

/-- `asocket::get_max_payload`. -/
def getMaxPayload (a : Server) (s : Ptr) : Except Fault Nat := do
  let x ← a.get s
  let own := x.transport.elim maxPayload fun t => min maxPayload (a.transports t).maxPayload
  match x.peer with
  | none => return own
  | some p =>
    let y ← a.get p
    return y.transport.elim own fun t => min own (a.transports t).maxPayload

/-! ### `close` -/

/-- `remote_socket_shutdown`. -/
def remoteSocketShutdown (a : Server) (s : Ptr) : Except Fault Server := do
  let x ← a.get s
  let t ← follow x.transport
  let arg0 ← x.peer.elim (.ok 0) fun p => do
    let y ← a.get p
    return y.id
  return a.sendPacket t ⟨.clse, arg0, x.id, []⟩

/-- `local_socket_destroy`. -/
def localSocketDestroy (a : Server) (s : Ptr) : Except Fault Server := do
  let a ← a.removeSocket s
  a.free s

/-- The end of `local_socket_close`. -/
def retire (a : Server) (s : Ptr) : Except Fault Server := do
  let x ← a.get s
  if x.sock.closesNow then a.localSocketDestroy s
  else do
    let a ← a.modify s fun x => { x with sock := x.sock.startClosing }
    let a ← a.removeSocket s
    let a := { a with localSocketClosingList := a.localSocketClosingList ++ [s] }
    if x.sock.fdeWrite then return a else .error .fatal

/-- `s->close(s)`. -/
def close : Nat → Server → Ptr → Except Fault Server
  | 0, _, _ => .error .tooDeep
  | fuel + 1, a, s => do
      let x ← a.get s
      match x.kind with
      | .local =>
        -- `local_socket_close_notify` resets the hooks and goes on with `local_socket_close`
        let a := if x.notify then a.set s { x with
          notify := false, status := x.status ++ [.fail "closed"] } else a
        let a ← x.peer.elim (.ok a) fun p => do
          let y ← a.get p
          let a ← if y.kind = .remote then a.remoteSocketShutdown p else .ok a
          let a ← a.modify p fun y => { y with peer := none }
          let a ← close fuel a p
          a.modify s fun x => { x with peer := none }
        a.retire s
      | .remote | .smart | .tracker =>
        let a ← x.peer.elim (.ok a) fun p => do
          let a ← a.modify p fun y => { y with peer := none }
          close fuel a p
        a.free s

/-- The calls of `close` are nested three deep at most. -/
def closeSocket (a : Server) (s : Ptr) : Except Fault Server := close 3 a s

/-- `s->transport == t || (s->peer && s->peer->transport == t)`. -/
def socketOf (a : Server) (t : TransportPtr) (s : Ptr) : Except Fault Bool := do
  let x ← a.get s
  if x.transport = some t then return true
  else x.peer.elim (.ok false) fun p => do
    let y ← a.get p
    return y.transport = some t

/-- The loop of `close_all_sockets`: the first socket of the transport. -/
def findSocketOf (a : Server) (t : TransportPtr) : List Ptr → Except Fault (Option Ptr)
  | [] => .ok none
  | s :: rest => do
      let found ← a.socketOf t s
      if found then return some s else findSocketOf a t rest

/-- `close_all_sockets`, which restarts behind every socket it closes. -/
def closeAllLoop (t : TransportPtr) : Nat → Server → Except Fault Server
  | 0, _ => .error .tooDeep
  | fuel + 1, a => do
      let found ← a.findSocketOf t a.localSocketList
      found.elim (.ok a) fun s => do
        let a ← a.closeSocket s
        closeAllLoop t fuel a

/-- `close_all_sockets`: every round takes a socket off the list. -/
def closeAllSockets (a : Server) (t : TransportPtr) : Except Fault Server :=
  closeAllLoop t (a.localSocketList.length + 1) a

/-! ### `ready` and `enqueue` -/

/-- `s->ready(s)`. A tracker sends the list of devices on the first call only, which is the one
in `smartTrack`. -/
def ready (a : Server) (s : Ptr) : Except Fault Server := do
  let x ← a.get s
  match x.kind with
  | .local =>
    -- `local_socket_ready_notify` resets the hooks and goes on with `local_socket_ready`
    let x := if x.notify then { x with
      notify := false, status := x.status ++ [.okay] } else x
    return a.set s { x with sock := { x.sock with fdeRead := true } }
  | .remote => do
      let p ← follow x.peer
      let y ← a.get p
      let t ← follow x.transport
      return a.sendPacket t ⟨.okay, y.id, x.id, []⟩
  | .smart | .tracker => return a

/-- `local_socket_enqueue`. -/
def localSocketEnqueue (a : Server) (s : Ptr) (p : List UInt8) (results : List WriteResult) :
    Except Fault (Server × Int) := do
  let x ← a.get s
  let (sock, result) := x.sock.enqueue p results
  let a := a.set s { x with sock }
  match result with
  | .ready => return (a, 0)
  | .backlog => return (a, 1)
  | .failed => do
      let a ← a.closeSocket s
      return (a, 1)

/-- `remote_socket_enqueue`. -/
def remoteSocketEnqueue (a : Server) (s : Ptr) (p : List UInt8) : Except Fault (Server × Int) := do
  let x ← a.get s
  let q ← follow x.peer
  let y ← a.get q
  let t ← follow x.transport
  return (a.sendPacket t ⟨.wrte, y.id, x.id, p⟩, 1)

/-! ### Device trackers -/

/-- `create_device_tracker`. -/
def createDeviceTracker (a : Server) : Server × Ptr :=
  a.alloc ⟨0, .tracker, false, none, none, .new, []⟩

/-- `device_tracker_send`, of a packet with the list of devices. The peer of a tracker is a local
socket. -/
def deviceTrackerSend (a : Server) (s : Ptr) (devices : List UInt8) (results : List WriteResult) :
    Except Fault Server := do
  let x ← a.get s
  let q ← follow x.peer
  let (a, _) ← a.localSocketEnqueue q devices results
  return a

/-- `device_tracker_enqueue`. -/
def deviceTrackerEnqueue (a : Server) (s : Ptr) : Except Fault (Server × Int) := do
  let a ← a.closeSocket s
  return (a, -1)

/-! ### Smart sockets -/

/-- `connect_to_remote`. -/
def connectToRemote (a : Server) (s : Ptr) (destination : List UInt8) : Except Fault Server := do
  let x ← a.get s
  let payload ← a.getMaxPayload s
  let t ← follow x.transport
  -- `get_max_payload() - 1` is a `size_t`, and wraps at 0
  if 0 < payload ∧ payload < destination.length + 2 then .error .fatal
  else return a.sendPacket t ⟨.open, x.id, 0, destination ++ [0]⟩

/-- The value of a hexadecimal digit in `unhex`. -/
def hexDigit (c : UInt8) : Option Nat :=
  if 0x30 ≤ c ∧ c ≤ 0x39 then some (c.toNat - 0x30)
  else if 0x61 ≤ c ∧ c ≤ 0x66 then some (c.toNat - 0x61 + 10)
  else if 0x41 ≤ c ∧ c ≤ 0x46 then some (c.toNat - 0x41 + 10)
  else none

/-- `unhex`. -/
def unhex (s : List UInt8) : Nat :=
  ((s.mapM hexDigit).map fun ds => ds.foldl (fun n d => n * 16 + d) 0).getD 0xffffffff

/-- What the other parts of the server say to the request of a client: whether
`handle_host_request` returns 0, the transport that it sets, and whether there is a service of
that name. For a client that tracks devices, the packet with the first list of devices and the
results of writing it. -/
structure HostAnswer where
  handled : Bool
  transport : Option TransportPtr
  service : Bool
  devices : List UInt8
  results : List WriteResult
  deriving DecidableEq, Repr

/-- `"host-serial:"`. -/
def hostSerial : List UInt8 :=
  [0x68, 0x6f, 0x73, 0x74, 0x2d, 0x73, 0x65, 0x72, 0x69, 0x61, 0x6c, 0x3a]

/-- `"host-transport-id:"`. -/
def hostTransportId : List UInt8 :=
  [0x68, 0x6f, 0x73, 0x74, 0x2d, 0x74, 0x72, 0x61, 0x6e, 0x73, 0x70, 0x6f, 0x72, 0x74,
    0x2d, 0x69, 0x64, 0x3a]

/-- `"host-usb:"`. -/
def hostUsb : List UInt8 :=
  [0x68, 0x6f, 0x73, 0x74, 0x2d, 0x75, 0x73, 0x62, 0x3a]

/-- `"host-local:"`. -/
def hostLocal : List UInt8 :=
  [0x68, 0x6f, 0x73, 0x74, 0x2d, 0x6c, 0x6f, 0x63, 0x61, 0x6c, 0x3a]

/-- `"host:"`. -/
def hostAny : List UInt8 :=
  [0x68, 0x6f, 0x73, 0x74, 0x3a]

/-- `"transport"`. -/
def transportService : List UInt8 :=
  [0x74, 0x72, 0x61, 0x6e, 0x73, 0x70, 0x6f, 0x72, 0x74]

/-- `"track-devices"` and `"track-devices-l"`. -/
def trackDevices : List (List UInt8) :=
  let name : List UInt8 :=
    [0x74, 0x72, 0x61, 0x63, 0x6b, 0x2d, 0x64, 0x65, 0x76, 0x69, 0x63, 0x65, 0x73]
  [name, name ++ [0x2d, 0x6c]]

/-- A digit. -/
def isDigit (c : UInt8) : Bool := 0x30 ≤ c ∧ c ≤ 0x39

/-- A blank, for `isspace`. -/
def isSpace (c : UInt8) : Bool := c = 0x20 ∨ (0x09 ≤ c ∧ c ≤ 0x0d)

/-- The text behind the number that `strtoll` reads. -/
def behindNumber (s : List UInt8) : List UInt8 :=
  let digits := match s.dropWhile isSpace with
    | 0x2d :: rest => rest
    | 0x2b :: rest => rest
    | rest => rest
  if digits.head?.any isDigit then digits.dropWhile isDigit else s

/-- `strchr`: the text from a character on. -/
def strchr (c : UInt8) (s : List UInt8) : Option (List UInt8) :=
  let rest := s.dropWhile (· ≠ c)
  if rest = [] then none else some rest

/-- `"usb:"`, `"product:"`, `"model:"` and `"device:"`. -/
def serialPrefixes : List (List UInt8) :=
  [[0x75, 0x73, 0x62, 0x3a],
    [0x70, 0x72, 0x6f, 0x64, 0x75, 0x63, 0x74, 0x3a],
    [0x6d, 0x6f, 0x64, 0x65, 0x6c, 0x3a],
    [0x64, 0x65, 0x76, 0x69, 0x63, 0x65, 0x3a]]

/-- `"tcp:"` and `"udp:"`. -/
def protocolPrefixes : List (List UInt8) :=
  [[0x74, 0x63, 0x70, 0x3a], [0x75, 0x64, 0x70, 0x3a]]

/-- The colon behind a port, when there is one behind the colon at the front of `s`. -/
def skipPort (s : List UInt8) : List UInt8 :=
  if s.tail.head?.any isDigit then
    let rest := s.tail.dropWhile isDigit
    if rest.head? = some 0x3a then rest else s
  else s

/-- `skip_host_serial`: the text from the colon in front of the command on. -/
def skipHostSerial (service : List UInt8) : Option (List UInt8) :=
  match serialPrefixes.find? fun start => start.isPrefixOf service with
  | some start => strchr 0x3a (service.drop start.length)
  | none =>
    -- for fastboot compatibility, ignore protocol prefixes
    let service := if protocolPrefixes.any fun start => start.isPrefixOf service then
      service.drop 4 else service
    -- an IPv6 address has [] delimiters
    let service := if service.head? = some 0x5b then (strchr 0x5d service).getD service
      else service
    (strchr 0x3a service).map skipPort

/-- What a request is for. -/
inductive Request where
  | host (service : List UInt8)
  | badTransportId
  | device
  deriving DecidableEq, Repr

/-- The service of a request, behind what says which device it is for. -/
def parseRequest (request : List UInt8) : Request :=
  let behind (start : List UInt8) : Option (List UInt8) :=
    if start.isPrefixOf request then some (request.drop start.length) else none
  match behind hostSerial with
  | some service => .host ((skipHostSerial service).elim service List.tail)
  | none =>
  match behind hostTransportId with
  | some service =>
    let rest := behindNumber service
    if rest.head? = some 0x3a then .host rest.tail else .badTransportId
  | none =>
  match behind hostUsb, behind hostLocal, behind hostAny with
  | some service, _, _ => .host service
  | none, some service, _ => .host service
  | none, none, some service => .host service
  | none, none, none => .device

/-- The label `fail` of `smart_socket_enqueue`. -/
def smartFail (a : Server) (s : Ptr) : Except Fault (Server × Int) := do
  let a ← a.closeSocket s
  return (a, -1)

/-- `SendFail` to the peer, and the label `fail`. -/
def smartSendFail (a : Server) (s : Ptr) (reason : String) : Except Fault (Server × Int) := do
  let x ← a.get s
  let q ← follow x.peer
  let a ← a.modify q fun y => { y with status := y.status ++ [.fail reason] }
  a.smartFail s

/-- A request to track devices. -/
def smartTrack (a : Server) (s q : Ptr) (answer : HostAnswer) : Except Fault (Server × Int) := do
  let (a, s2) := a.createDeviceTracker
  let a ← a.modify q fun y => { y with
    status := y.status ++ [.okay], notify := false, peer := some s2 }
  let a ← a.modify s2 fun y => { y with peer := some q }
  let a ← a.modify s fun x => { x with peer := none }
  let a ← a.closeSocket s
  -- `s2->ready(s2)`, which sends the list; what `enqueue` returns is dropped
  let a ← a.deviceTrackerSend s2 answer.devices answer.results
  return (a, 0)

/-- A request for a service of the host. -/
def smartHost (a : Server) (s : Ptr) (service : List UInt8) (answer : HostAnswer) :
    Except Fault (Server × Int) := do
  let x ← a.get s
  let q ← follow x.peer
  let _ ← a.get q
  let x := { x with transport := answer.transport.elim x.transport some }
  let a := a.set s x
  if answer.handled then a.smartFail s
  else if transportService.isPrefixOf service then
    return (a.set s { x with sock := { x.sock with pktQueue := [[]] } }, 0)
  else if service ∈ trackDevices then a.smartTrack s q answer
  else if !answer.service then a.smartSendFail s "unknown host service"
  else do
    let (a, s2) ← a.createLocalSocket
    -- our peer is a regular local socket again, bound to the service
    let a ← a.modify q fun y => { y with
      status := y.status ++ [.okay], notify := false, peer := some s2 }
    let a ← a.modify s2 fun y => { y with peer := some q }
    let a ← a.modify s fun x => { x with peer := none }
    let a ← a.closeSocket s
    let a ← a.ready s2
    return (a, 0)

/-- A request for a service of the device. -/
def smartDevice (a : Server) (s : Ptr) (destination : List UInt8) :
    Except Fault (Server × Int) := do
  let x ← a.get s
  match x.transport with
  | none => a.smartSendFail s "device offline (no transport)"
  | some t =>
    if (a.transports t).offline then
      a.smartSendFail s "device offline (transport offline)"
    else do
      let q ← follow x.peer
      -- our peer passes the success or fail message back once it connects or closes
      let a ← a.modify q fun y => { y with notify := true, peer := none, transport := some t }
      let a ← a.connectToRemote q destination
      let a ← a.modify s fun x => { x with peer := none }
      let a ← a.closeSocket s
      return (a, 1)

/-- `smart_socket_enqueue`, behind the label that has the whole packet `p`. -/
def smartRequest (a : Server) (s : Ptr) (p : List UInt8) (answer : HostAnswer) :
    Except Fault (Server × Int) :=
  -- don't bother if we can't decode the length
  if p.length < 4 then .ok (a, 0)
  else
    let len := unhex (p.take 4)
    if len < 1 ∨ maxPayload < len then a.smartFail s
    -- can't do anything until we have the full header
    else if p.length < len + 4 then .ok (a, 0)
    else
      let request := ((p.drop 4).take len).takeWhile (· ≠ 0)
      match parseRequest request with
      | .badTransportId => .ok (a, -1)
      | .host service => a.smartHost s service answer
      | .device => a.smartDevice s request

/-- `smart_socket_enqueue`. -/
def smartSocketEnqueue (a : Server) (s : Ptr) (p : List UInt8) (answer : HostAnswer) :
    Except Fault (Server × Int) := do
  let x ← a.get s
  let payload ← a.getMaxPayload s
  match x.sock.pktQueue with
  | [] =>
    let a := a.set s { x with sock := { x.sock with pktQueue := [p] } }
    a.smartRequest s p answer
  | first :: rest =>
    if payload < first.length + p.length then a.smartFail s
    else
      let a := a.set s { x with sock := { x.sock with pktQueue := (first ++ p) :: rest } }
      a.smartRequest s (first ++ p) answer

/-! ### Events of a descriptor -/

/-- What a descriptor event of a local socket comes with: whether it is writable and readable,
the results of the writes, the bytes that can be read and whether the stream ends behind them,
`fde.force_eof`, and what the peer gets from the kernel and from the server. -/
structure FdEvent where
  write : Bool
  read : Bool
  results : List WriteResult
  data : List UInt8
  eof : Bool
  forceEof : Bool
  peerResults : List WriteResult
  answer : HostAnswer

/-- `s->peer->enqueue(s->peer, p)`. -/
def enqueue (a : Server) (s : Ptr) (p : List UInt8) (ev : FdEvent) :
    Except Fault (Server × Int) := do
  let x ← a.get s
  match x.kind with
  | .local => a.localSocketEnqueue s p ev.peerResults
  | .remote => a.remoteSocketEnqueue s p
  | .smart => a.smartSocketEnqueue s p ev.answer
  | .tracker => a.deviceTrackerEnqueue s

/-- The writable half of `local_socket_event_func`; the flag says whether it goes on to the
readable half. -/
def eventWrite (a : Server) (s : Ptr) (results : List WriteResult) :
    Except Fault (Server × Bool) := do
  let x ← a.get s
  let (sock, how) := x.sock.drain results
  let a := a.set s { x with sock }
  match how with
  | .blocked => return (a, false)
  | .failed => do
      let a ← a.closeSocket s
      return (a, false)
  | .done =>
    if sock.closing then do
      let a ← a.closeSocket s
      return (a, false)
    else do
      let p ← follow x.peer
      let a ← a.ready p
      return (a, true)

/-- The end of the readable half: `r` is the last result. -/
def eventReadEnd (a : Server) (s : Ptr) (r : Int) (eof forceEof : Bool) : Except Fault Server := do
  let _ ← a.get s
  if (forceEof ∧ r = 0) ∨ eof then a.closeSocket s else return a

/-- The readable half of `local_socket_event_func`. -/
def eventRead (a : Server) (s : Ptr) (ev : FdEvent) : Except Fault Server := do
  let x ← a.get s
  let payload ← a.getMaxPayload s
  let data := ev.data.take payload
  -- the end of the stream is not seen when the packet is full
  let eof := ev.eof && data.length < payload
  match x.peer with
  | none => a.eventReadEnd s (if payload = 0 then 0 else -1) eof ev.forceEof
  | some p =>
    if data = [] then a.eventReadEnd s (if payload = 0 then 0 else -1) eof ev.forceEof
    else do
      let (a, r) ← a.enqueue p data ev
      if r < 0 then return a
      else if a.heap s = none then
        -- `enqueue` has freed `s`: what follows uses it, and `s->close(s)` frees it again
        .error (if (ev.forceEof ∧ r = 0) ∨ eof then .doubleFree else .useAfterFree)
      else do
        -- if the remote cannot accept further events, we disable notification of READs
        let a ← if 0 < r then a.modify s fun x => { x with
          sock := { x.sock with fdeRead := false } } else .ok a
        a.eventReadEnd s r eof ev.forceEof

/-- `local_socket_event_func`. -/
def localSocketEventFunc (a : Server) (s : Ptr) (ev : FdEvent) : Except Fault Server := do
  let (a, goOn) ← if ev.write then a.eventWrite s ev.results else .ok (a, true)
  if ev.read ∧ goOn then a.eventRead s ev else return a

/-! ### New clients -/

/-- `connect_to_smartsocket`, for the socket of a new client. -/
def acceptSmart (a : Server) : Except Fault Server := do
  let (a, s) ← a.createLocalSocket
  let (a, ss) := a.alloc ⟨0, .smart, false, some s, none, .new, []⟩
  let a ← a.modify s fun x => { x with peer := some ss }
  a.ready s

/-- `listener_event_func`: a new client of a forwarded port. -/
def acceptForward (a : Server) (t : TransportPtr) (destination : List UInt8) :
    Except Fault Server := do
  let (a, s) ← a.createLocalSocket
  let a ← a.modify s fun x => { x with transport := some t }
  a.connectToRemote s destination

end Server

end AndroidCore.Adb
