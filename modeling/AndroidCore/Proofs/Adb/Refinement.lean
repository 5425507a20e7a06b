import AndroidCore.Proofs.Adb.Events
import AndroidCore.Proofs.Adb.Stream

/-!
# `AndroidCore.Proofs.Adb.Refinement`: the streams of the server

A server that has a local socket with a remote peer carries a stream: the socket is that of the
stream, and the packets of its history were sent (`Joined.carry`). Until the stream is closed,
the functions of the server do to it what those of `Stream` say, whatever else is on the heap.
What a stream does to its local socket is what `Delivery` says (`Stream.delivery`).
-/

namespace AndroidCore.Adb

/-! ### A stream and its local socket -/

namespace Stream

/-- What a stream has of the life of its local socket. -/
def delivery (st : Stream) : Delivery := ⟨st.sock, st.destroyed, st.history.payloads⟩

theorem delivery_close (st : Stream) : st.close.delivery = st.delivery.close := by
  unfold close
  by_cases hconnected : st.connected = true
  · rw [if_pos hconnected]
    exact apply_ite delivery ..
  · rw [if_neg hconnected]
    exact apply_ite delivery ..

variable {st : Stream} (halive : st.destroyed = false)
include halive

/-- A packet `A_WRTE`. -/
theorem delivery_handleWrte (p : List UInt8) (results : List WriteResult) :
    (st.handleWrte p results).delivery = st.delivery.step (.enqueue p results) := by
  rw [Delivery.step, if_neg (by simp [delivery, halive]), handleWrte,
    show st.delivery.sock = st.sock from rfl]
  generalize st.sock.enqueue p results = r
  obtain ⟨sock, result⟩ := r
  cases result with
  | ready | backlog => rfl
  | failed => exact delivery_close _

/-- A writable descriptor. -/
theorem delivery_eventWrite (hwrite : st.sock.fdeWrite = true) (results : List WriteResult) :
    (st.eventWrite results).1.delivery = st.delivery.step (.writable results) := by
  rw [Delivery.step, if_neg (by simp [delivery, halive, hwrite]), eventWrite,
    show st.delivery.sock = st.sock from rfl]
  generalize st.sock.drain results = r
  obtain ⟨sock, how⟩ := r
  cases how with
  | blocked => rfl
  | failed => exact delivery_close _
  | done =>
    by_cases hclosing : sock.closing = true
    · simp only [if_pos hclosing]
      exact delivery_close _
    · simp only [if_neg hclosing]
      rfl

end Stream

/-! ### A server and its stream -/

/-- The packets that a history says were sent. -/
def History.packets (t : TransportPtr) (id peerId : Nat) : History → List (TransportPtr × Packet)
  | [] => []
  | .sentOkay :: past => packets t id peerId past ++ [(t, ⟨.okay, id, peerId, []⟩)]
  | .sentWrte p :: past => packets t id peerId past ++ [(t, ⟨.wrte, id, peerId, p⟩)]
  | _ :: past => packets t id peerId past

open Lib

namespace Server

/-- A local socket `x` of the server, and its remote peer `y` on the transport `t`. -/
structure Joined (a : Server) where
  s : Ptr
  x : Asocket
  kind : x.kind = .local
  notify : x.notify = false
  p : Ptr
  ne : p ≠ s
  peer : x.peer = some p
  y : Asocket
  remote : a.heap p = some y
  remoteKind : y.kind = .remote
  back : y.peer = some s
  t : TransportPtr
  transport : y.transport = some t

namespace Joined

variable {a : Server} (j : Joined a) (st : Stream)

/-- The server, with the stream at the local socket. -/
def carry : Server :=
  { a.set j.s { j.x with sock := st.sock } with
    sent := a.sent ++ st.history.packets j.t j.x.id j.y.id }

/-- The payload of the packets that the local socket sends. -/
def payload : Nat :=
  min (j.x.transport.elim maxPayload fun t => min maxPayload (a.transports t).maxPayload)
    (a.transports j.t).maxPayload

variable {j st}

theorem carry_heap : (j.carry st).heap j.s = some { j.x with sock := st.sock } :=
  set_heap_self ..

theorem carry_peer : (j.carry st).heap j.p = some j.y :=
  (set_heap_of_ne a _ j.ne).trans j.remote

theorem carry_set (sock : LocalSocket) :
    (j.carry st).set j.s { j.x with sock } = j.carry { st with sock } := by
  simp [carry, set]

theorem carry_okay : (j.carry st).sendPacket j.t ⟨.okay, j.x.id, j.y.id, []⟩ =
    j.carry (st.note .sentOkay) := by
  simp [carry, sendPacket, Stream.note, History.packets]

theorem carry_wrte (data : List UInt8) :
    (j.carry st).sendPacket j.t ⟨.wrte, j.x.id, j.y.id, data⟩ =
      j.carry (st.note (.sentWrte data)) := by
  simp [carry, sendPacket, Stream.note, History.packets]

/-- A stream that is closed is not connected. -/
theorem of_close {P : Prop} (h : st.close.connected = true) : P := by
  rw [(Stream.close_spec _).2.1] at h
  cases h

/-- A packet `A_WRTE` for the local socket. -/
theorem handleWrte (data : List UInt8) (env : PacketEnv)
    (hopen : (st.handleWrte data env.results).connected = true) :
    (j.carry st).performCall ⟨.wrte, j.y.id, j.x.id, data⟩ j.t env j.s .enqueue =
      .ok (j.carry (st.handleWrte data env.results)) := by
  have hset : ∀ sock, (j.carry st).set j.s { j.x with sock } =
      j.carry ((st.note (.accepted data)).noteWritten sock) := carry_set
  unfold Stream.handleWrte at hopen ⊢
  rw [performCall]
  rcases st.sock.enqueue_cases data env.results with
    ⟨w, heq, -⟩ | ⟨w, rest, heq, -⟩ | ⟨w, rest, heq, -⟩ <;> simp only [heq] at hopen ⊢
  · rw [localSocketEnqueue_eq carry_heap heq, ← carry_okay]
    simp only [hset, ok_bind_eq, get_eq carry_heap, if_true]
    rfl
  · rw [localSocketEnqueue_eq carry_heap heq]
    simp only [hset]
    rfl
  · exact of_close hopen

/-- A packet `A_OKAY` for it. -/
theorem handleOkay (pk : Packet) (env : PacketEnv) :
    (j.carry st).performCall pk j.t env j.s .ready = .ok (j.carry st.handleOkay) := by
  have hready : readied { j.x with sock := st.sock } =
      { j.x with sock := { st.sock with fdeRead := true } } := by
    simp [readied, j.notify]
  rw [performCall, ready_local carry_heap j.kind, hready, carry_set]
  rfl

/-- The remote socket sends `A_OKAY`. -/
theorem ready : (j.carry st).ready j.p = .ok (j.carry (st.note .sentOkay)) := by
  rw [Server.ready, get_eq carry_peer, ← carry_okay]
  simp only [ok_bind_eq, j.remoteKind, follow_eq j.back, get_eq carry_heap,
    follow_eq j.transport]
  rfl

/-- It sends `A_WRTE`. -/
theorem enqueue (data : List UInt8) (ev : FdEvent) :
    (j.carry st).enqueue j.p data ev = .ok (j.carry (st.note (.sentWrte data)), 1) := by
  rw [Server.enqueue, get_eq carry_peer, ← carry_wrte]
  simp only [ok_bind_eq, j.remoteKind, remoteSocketEnqueue, get_eq carry_peer,
    follow_eq j.back, get_eq carry_heap, follow_eq j.transport]
  rfl

/-! ### Events of the descriptor -/

/-- The writable half. -/
theorem writeHalf (ev : FdEvent) (hopen : (st.writeHalf ev).1.connected = true) :
    (if ev.write then (j.carry st).eventWrite j.s ev.results else .ok (j.carry st, true)) =
      .ok (j.carry (st.writeHalf ev).1, (st.writeHalf ev).2) := by
  have hset : ∀ sock, (j.carry st).set j.s { j.x with sock } =
      j.carry (st.noteWritten sock) := carry_set
  unfold Stream.writeHalf at hopen ⊢
  by_cases hwrite : ev.write = true
  · rw [if_pos hwrite] at hopen ⊢
    unfold Stream.eventWrite at hopen ⊢
    rw [if_pos hwrite, eventWrite, get_eq carry_heap]
    obtain ⟨w, queue, -, -, hcases⟩ := st.sock.drain_cases ev.results
    rcases hcases with ⟨-, heq⟩ | ⟨-, heq⟩ | ⟨-, heq⟩ <;>
      simp only [heq, ok_bind_eq, hset] at hopen ⊢
    · by_cases hclosing : st.sock.closing = true
      · rw [if_pos hclosing] at hopen
        exact of_close hopen
      · rw [if_neg hclosing, if_neg hclosing, follow_eq j.peer, ok_bind_eq, ready]
        rfl
    · rfl
    · exact of_close hopen
  · rw [if_neg hwrite, if_neg hwrite]

/-- The end of the readable half. -/
theorem eventReadEnd (r : Int) (eof forceEof : Bool)
    (hopen : (if (forceEof = true ∧ r = 0) ∨ eof = true then st.close else st).connected = true) :
    st.connected = true ∧ (j.carry st).eventReadEnd j.s r eof forceEof =
      .ok (j.carry (if (forceEof = true ∧ r = 0) ∨ eof = true then st.close else st)) := by
  rw [Server.eventReadEnd, get_eq carry_heap]
  split at hopen
  · exact of_close hopen
  · rename_i hgo
    simp only [if_neg hgo]
    exact ⟨hopen, rfl⟩

theorem getMaxPayload : (j.carry st).getMaxPayload j.s = .ok j.payload := by
  rw [Server.getMaxPayload, get_eq carry_heap]
  simp only [ok_bind_eq, j.peer, get_eq carry_peer, j.transport]
  rfl

/-- The readable half. -/
theorem eventRead (ev : FdEvent) (hopen : (st.eventRead j.payload ev).connected = true) :
    st.connected = true ∧
      (j.carry st).eventRead j.s ev = .ok (j.carry (st.eventRead j.payload ev)) := by
  unfold Stream.eventRead at hopen ⊢
  rw [Server.eventRead, get_eq carry_heap, ok_bind_eq, getMaxPayload, ok_bind_eq]
  simp only [j.peer]
  by_cases hsend : st.connected = true ∧ ev.data.take j.payload ≠ []
  · simp only [if_pos hsend] at hopen ⊢
    rw [if_neg hsend.2, enqueue, ok_bind_eq]
    show _ ∧ (if (1 : Int) < 0 then _ else if _ then _ else if (0 : Int) < 1 then _ else _) = _
    rw [if_neg (by decide), carry_heap, if_neg (by simp), if_pos (by decide), modify_eq carry_heap,
      ok_bind_eq, carry_set]
    exact ⟨hsend.1, (eventReadEnd _ _ _ hopen).2⟩
  · simp only [if_neg hsend] at hopen ⊢
    have hend := eventReadEnd (j := j) _ _ _ hopen
    rw [if_pos (by_contra fun hd => hsend ⟨hend.1, hd⟩)]
    exact hend

/-- An event of the descriptor that leaves the stream open. -/
theorem eventFunc (ev : FdEvent) (hopen : (st.eventFunc j.payload ev).connected = true) :
    (j.carry st).localSocketEventFunc j.s ev = .ok (j.carry (st.eventFunc j.payload ev)) := by
  rw [Stream.eventFunc_eq] at hopen ⊢
  by_cases hgo : ev.read = true ∧ (st.writeHalf ev).2 = true
  · rw [if_pos hgo] at hopen ⊢
    obtain ⟨hhalf, hread⟩ := eventRead ev hopen
    rw [localSocketEventFunc_eq (writeHalf ev hhalf), if_pos hgo, hread]
  · rw [if_neg hgo] at hopen ⊢
    rw [localSocketEventFunc_eq (writeHalf ev hopen), if_neg hgo]

end Joined

end Server

end AndroidCore.Adb
