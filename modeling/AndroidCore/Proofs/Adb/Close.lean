import AndroidCore.Proofs.Adb.Server

/-!
# `AndroidCore.Proofs.Adb.Close`: closing a socket

`close` goes through function pointers and calls itself for the peer. Since a socket cuts the
connection before it calls its peer, the calls end behind the peer: the peer of a local socket
is freed when it is a remote or smart one or a tracker, and retired as the socket itself when it
is a local one. `Inv.closeSocket` is what the callers use: closing a local socket does not fail,
leaves all sockets settled, and touches no socket but the one that is closed and its peer.
-/

namespace AndroidCore.Adb

open Lib List Option Function LocalSocket

namespace Server

variable {a : Server} {U : Ptr → Prop} {s p : Ptr} {x y : Asocket}

/-! ### The end of `local_socket_close` -/

/-- The server without a local socket. -/
def destroyed (a : Server) (s : Ptr) : Server :=
  { a with
    heap := update a.heap s none
    localSocketList := a.localSocketList.erase s
    localSocketClosingList := a.localSocketClosingList.erase s }

/-- The server with a local socket moved to the closing list. -/
def parked (a : Server) (s : Ptr) (x : Asocket) : Server :=
  { a with
    heap := update a.heap s (some { x with id := 0, sock := x.sock.startClosing })
    localSocketList := a.localSocketList.erase s
    localSocketClosingList := a.localSocketClosingList.erase s ++ [s] }

/-- The server behind the end of `local_socket_close`. -/
def retired (a : Server) (s : Ptr) (x : Asocket) : Server :=
  if x.sock.closesNow then a.destroyed s else a.parked s x

section
variable (hx : a.heap s = some x)
  (hlists : s ∈ a.localSocketList ∨ s ∈ a.localSocketClosingList)
include hx hlists

theorem removeSocket_eq :
    a.removeSocket s = .ok { a with
      heap := update a.heap s (some { x with id := 0 })
      localSocketList := a.localSocketList.erase s
      localSocketClosingList := a.localSocketClosingList.erase s } := by
  rw [removeSocket, get_eq hx]
  show (if _ then _ else _) = _
  rw [if_pos hlists]
  rfl

theorem retire_eq (hready : x.sock.closesNow = true ∨ x.sock.fdeWrite = true) :
    a.retire s = .ok (a.retired s x) := by
  unfold retire retired
  rw [get_eq hx]
  show (if x.sock.closesNow = true then _ else _) = _
  by_cases hnow : x.sock.closesNow = true
  · rw [if_pos hnow, if_pos hnow, localSocketDestroy, removeSocket_eq hx hlists]
    show Server.free _ s = _
    rw [free_eq (x := { x with id := 0 }) (by simp)]
    simp [destroyed]
  · have hwrite : x.sock.fdeWrite = true := hready.resolve_left hnow
    rw [if_neg hnow, if_neg hnow, modify_eq hx]
    show (removeSocket _ s >>= _) = _
    rw [removeSocket_eq (set_heap_self a s _) hlists]
    show (if x.sock.fdeWrite = true then _ else _) = _
    rw [if_pos hwrite]
    simp [set]
    rfl

end

variable {q : Ptr}

/-- What the end of `local_socket_close` leaves of the heap. -/
theorem retired_heap_of_ne (a : Server) (x : Asocket) (hq : q ≠ s) :
    (a.retired s x).heap q = a.heap q := by
  unfold retired
  split <;> simp [destroyed, parked, hq]

section
variable (a s x)

theorem retired_heap_self : (a.retired s x).heap s = if x.sock.closesNow then none
    else some { x with id := 0, sock := x.sock.startClosing } := by
  unfold retired
  split <;> simp [destroyed, parked]

@[simp] theorem retired_localSocketList :
    (a.retired s x).localSocketList = a.localSocketList.erase s := by
  unfold retired
  split <;> rfl

@[simp] theorem retired_nextPtr : (a.retired s x).nextPtr = a.nextPtr := by
  unfold retired
  split <;> rfl

@[simp] theorem retired_localSocketNextId :
    (a.retired s x).localSocketNextId = a.localSocketNextId := by
  unfold retired
  split <;> rfl

@[simp] theorem retired_transports : (a.retired s x).transports = a.transports := by
  unfold retired
  split <;> rfl

end

theorem mem_retired_closing (a : Server) (x : Asocket) (hq : q ≠ s) :
    q ∈ (a.retired s x).localSocketClosingList ↔ q ∈ a.localSocketClosingList := by
  unfold retired
  split <;> simp [destroyed, parked, hq]

/-- A local socket that is not destroyed at once still has packets to write. -/
theorem closesNow_eq_false {sock : LocalSocket} (h : sock.closesNow = false) :
    sock.closing = false ∧ sock.hasWriteError = false ∧ sock.pktQueue ≠ [] := by
  simpa [closesNow] using h

variable {V : Ptr → Prop}

/-- What is left behind the end of `local_socket_close` is settled. -/
theorem Inv.retired (h : Inv U a) (hx : a.heap s = some x) (hkind : x.kind = .local)
    (hpeer : x.peer = none) (hU : U s) (hV : ∀ q, q ≠ s → (V q ↔ U q)) (hVs : ¬ V s) :
    Inv V (a.retired s x) := by
  have hok := h.localOk hx hkind
  -- a socket that stays is a closing one
  have hstays : ∀ z, (a.retired s x).heap s = some z →
      z = { x with id := 0, sock := x.sock.startClosing } ∧ x.sock.closesNow = false := by
    intro z hz
    rw [retired_heap_self] at hz
    cases hnow : x.sock.closesNow with
    | true => simp [hnow] at hz
    | false =>
      rw [hnow] at hz
      exact ⟨(some.inj hz).symm, rfl⟩
  refine h.change ⟨fun q => retired_heap_of_ne a x, by simp, ?_, by simp,
    by simpa using h.nextId_lt, by simpa using h.localNodup.erase s, ?_, ?_,
    fun q => mem_retired_closing a x, ?_, ?_, hV, ?_, ?_, ?_⟩
  case refine_1 =>
    rintro q rfl
    rw [retired_nextPtr]
    exact h.allocated hx
  case refine_2 =>
    unfold Server.retired
    split
    · exact h.closingNodup.erase s
    · show (a.localSocketClosingList.erase s ++ [s]).Nodup
      rw [nodup_append]
      refine ⟨h.closingNodup.erase s, by simp, ?_⟩
      intro q hq q' hq' heq
      obtain rfl : q' = s := by simpa using hq'
      exact absurd (heq ▸ hq) h.closingNodup.not_mem_erase
  case refine_3 =>
    intro q hq
    rw [retired_localSocketList, mem_erase_of_ne hq]
  case refine_4 =>
    rintro q rfl
    rw [retired_localSocketList]
    constructor
    · intro hmem
      exact absurd hmem h.localNodup.not_mem_erase
    · rintro ⟨z, hz, -, hc⟩
      rw [(hstays z hz).1] at hc
      cases hc
  case refine_5 =>
    simp only [ClosingAt]
    unfold Server.retired
    cases hnow : x.sock.closesNow with
    | true => simp [destroyed, h.closingNodup.not_mem_erase]
    | false => simp [parked, startClosing, hkind]
  case refine_6 =>
    rintro q z rfl hz
    obtain ⟨rfl, hnow⟩ := hstays z hz
    obtain ⟨-, hnoError, hqueue⟩ := closesNow_eq_false hnow
    have hwrite := (hok.unsettled hU).resolve_left (by simp [hnow])
    refine ⟨?_, fun _ => ?_, fun hk => absurd hkind hk, ?_, fun _ => rfl⟩
    · intro p hp
      rw [show x.peer = some p from hp] at hpeer
      cases hpeer
    · refine ⟨fun _ => hpeer, fun _ => hpeer, by simp [startClosing],
        by simp [startClosing], fun _ => ?_,
        fun hVq => absurd hVq hVs⟩
      exact ⟨hnoError, ⟨fun _ => hqueue, fun _ => hwrite⟩, fun _ => hqueue,
        by simp [startClosing]⟩
    · intro hk
      rw [show x.kind = .remote from hk] at hkind
      cases hkind
  case refine_7 =>
    rintro q z p - hz hzp rfl
    rw [h.peer_eq hx hz hzp] at hpeer
    cases hpeer
  case refine_8 =>
    rintro q z rfl ⟨hz, -, hc⟩
    rw [(hstays z hz).1] at hc
    cases hc

/-! ### Cutting a connection -/

/-- The connection of `s` and `p` is cut, and `z` is left of `p`. -/
def cut (a : Server) (s p : Ptr) (x : Asocket) (z : Option Asocket) : Server :=
  { a with
    heap := update (update a.heap p z) s (some { x with peer := none }) }

section
variable (a s p x) (z : Option Asocket)

theorem cut_heap_self : (a.cut s p x z).heap s = some { x with peer := none } := by
  simp [cut]

variable {s p}

theorem cut_heap_peer (h : p ≠ s) : (a.cut s p x z).heap p = z := by
  simp [cut, h]

theorem cut_heap_of_ne (hs : q ≠ s) (hp : q ≠ p) : (a.cut s p x z).heap q = a.heap q := by
  simp [cut, hs, hp]

end

theorem LocalOk.ready (h : LocalOk a U s x) : x.sock.closesNow = true ∨ x.sock.fdeWrite = true := by
  by_cases hU : U s
  · exact h.unsettled hU
  · exact (h.settled hU).ready

/-- A local socket with a peer is on the local list. -/
theorem LocalOk.open_of_peer (h : LocalOk a U s x) (hp : x.peer = some p) :
    x.sock.closing = false ∧ x.notify = false := by
  constructor
  · by_contra hc
    rw [h.closing (by simpa using hc)] at hp
    cases hp
  · by_contra hn
    rw [h.notify (by simpa using hn)] at hp
    cases hp

/-- A local socket that has just lost its peer. -/
theorem Good.cut (h : LocalOk a U s x) (hkind : x.kind = .local) {a' : Server}
    (hnext : a.localSocketNextId ≤ a'.localSocketNextId) (hV : V s) :
    Good a' V s { x with peer := none } := by
  refine ⟨by simp, fun _ => ?_, fun hk => absurd hkind hk, ?_, ?_⟩
  · exact ⟨fun _ => rfl, fun _ => rfl, h.id_pos,
      fun hc => Nat.lt_of_lt_of_le (h.id_lt hc) hnext, fun hVs => absurd hV hVs,
      fun _ => h.ready⟩
  · simp [hkind]
  · simp [hkind]

/-- A local socket loses its peer: a remote or smart one is freed, and a local one loses its
peer as well. -/
theorem Inv.cut (h : Inv U a) (hx : a.heap s = some x) (hkind : x.kind = .local)
    (hp : x.peer = some p) (hy : a.heap p = some y) {z : Option Asocket}
    (hz : (y.kind ≠ .local ∧ z = none) ∨
      (y.kind = .local ∧ z = some { y with peer := none }))
    (hV : ∀ q, q ≠ s → q ≠ p → (V q ↔ U q)) (hVs : V s) (hVp : y.kind = .local → V p) :
    Inv V (a.cut s p x z) := by
  have hne : p ≠ s := ((h.good s x hx).peer p hp).1
  have hok := h.localOk hx hkind
  have hys : y.peer = some s := h.peer_eq hy hx hp
  have hheap : ∀ q w, both s p q → (a.cut s p x z).heap q = some w →
      (q = s ∧ w = { x with peer := none }) ∨
        (q = p ∧ y.kind = .local ∧ w = { y with peer := none }) := by
    rintro q w (rfl | rfl) hw
    · rw [cut_heap_self] at hw
      exact .inl ⟨rfl, (some.inj hw).symm⟩
    · rw [cut_heap_peer a x z hne] at hw
      rcases hz with ⟨-, rfl⟩ | ⟨hk, rfl⟩
      · cases hw
      · exact .inr ⟨rfl, hk, (some.inj hw).symm⟩
  refine h.changeInPlace (D := both s p) rfl rfl rfl (Nat.le_refl _) ?_ ?_ ?_ ?_ ?_ ?_
  case refine_1 =>
    intro q hq
    exact cut_heap_of_ne a x z (fun heq => hq (.inl heq)) (fun heq => hq (.inr heq))
  case refine_2 =>
    rintro q (rfl | rfl)
    · exact h.allocated hx
    · exact h.allocated hy
  case refine_3 =>
    rintro q (rfl | rfl) closing id
    · simp [LocalAt, hx, cut_heap_self]
    · rcases hz with ⟨hk, rfl⟩ | ⟨hk, rfl⟩ <;> simp [LocalAt, hy, cut_heap_peer a x _ hne, hk]
  case refine_4 =>
    intro q hq
    exact hV q (fun heq => hq (.inl heq)) (fun heq => hq (.inr heq))
  case refine_5 =>
    intro q w hq hw
    rcases hheap q w hq hw with ⟨rfl, rfl⟩ | ⟨rfl, hk, rfl⟩
    · exact Good.cut hok hkind (Nat.le_refl _) hVs
    · exact Good.cut (h.localOk hy hk) hk (Nat.le_refl _) (hVp hk)
  case refine_6 =>
    -- no third socket has one of the two as its peer
    rintro q w r hq hw hwr (rfl | rfl)
    · exact absurd (.inr (mem_unique (h.peer_eq hx hw hwr) hp)) hq
    · exact absurd (.inl (mem_unique (h.peer_eq hy hw hwr) hys)) hq

/-- `Inv` does not depend on the transports and on what was sent. -/
theorem Inv.congr (h : Inv U a) {a' : Server} (hheap : a'.heap = a.heap)
    (hnextPtr : a'.nextPtr = a.nextPtr) (hlocal : a'.localSocketList = a.localSocketList)
    (hclosing : a'.localSocketClosingList = a.localSocketClosingList)
    (hnextId : a'.localSocketNextId = a.localSocketNextId) : Inv U a' :=
  h.changeInPlace hlocal hclosing hnextId hnextPtr.ge (fun q _ => congrFun hheap q)
    (fun _ => False.elim) (fun _ => False.elim) (fun _ _ => Iff.rfl) (fun _ _ => False.elim)
    (fun _ _ _ _ _ _ => False.elim)

theorem Inv.sendPacket (h : Inv U a) (t : TransportPtr) (pk : Packet) : Inv U (a.sendPacket t pk) :=
  h.congr rfl rfl rfl rfl rfl

theorem Inv.setTransport (h : Inv U a) (t : TransportPtr) (f : Transport → Transport) :
    Inv U (a.setTransport t f) :=
  h.congr rfl rfl rfl rfl rfl

/-! ### `close` -/

/-- What closing a local socket leaves of the others. -/
structure Closed (s : Ptr) (x : Asocket) (a a' : Server) : Prop where
  frame : ∀ q, q ≠ s → x.peer ≠ some q → a'.heap q = a.heap q
  list : ∀ q, q ∈ a'.localSocketList ↔ q ∈ a.localSocketList ∧ q ≠ s ∧ x.peer ≠ some q
  sublist : a'.localSocketList.Sublist a.localSocketList
  transports : a'.transports = a.transports
  gone : x.sock.closesNow = true → a'.heap s = none
  self : a'.heap s = none ∨ ∃ z, a'.ClosingAt s z
  peer : ∀ p y, x.peer = some p → a.heap p = some y → y.kind = .local →
    a'.heap p = if y.sock.closesNow then none
      else some { y with peer := none, id := 0, sock := y.sock.startClosing }

section
variable (hx : a.heap s = some x)
include hx

theorem close_local_unpeered (fuel : Nat) (hkind : x.kind = .local)
    (hpeer : x.peer = none) (hnotify : x.notify = false) :
    close (fuel + 1) a s = a.retire s := by
  rw [close, get_eq hx]
  simp only [ok_bind_eq, hkind, hpeer, hnotify]
  rfl

theorem close_other_unpeered (fuel : Nat) (hkind : x.kind ≠ .local) (hpeer : x.peer = none) :
    close (fuel + 1) a s = a.free s := by
  rw [close, get_eq hx]
  cases hk : x.kind with
  | «local» => exact absurd hk hkind
  | remote | smart | tracker => simp [ok_bind_eq, hk, hpeer]

/-- A socket without a peer is closed. -/
theorem Inv.retire (h : Inv (only s) a) (hkind : x.kind = .local) (hpeer : x.peer = none) :
    a.retire s = .ok (a.retired s x) ∧ Inv idle (a.retired s x) := by
  refine ⟨retire_eq hx (h.mem_lists hx hkind) (h.localOk hx hkind).ready, ?_⟩
  exact h.retired hx hkind hpeer rfl (fun q => iff_of_false not_false) not_false

/-- Without a peer, the hooks are reset at most. -/
theorem close_without_peer (fuel : Nat) (hkind : x.kind = .local) (hp : x.peer = none) :
    ∃ x', x'.kind = .local ∧ x'.peer = none ∧ x'.id = x.id ∧ x'.sock = x.sock ∧
      x'.transport = x.transport ∧ close (fuel + 1) a s = (a.set s x').retire s := by
  by_cases hnotify : x.notify = true
  · refine ⟨{ x with notify := false, status := x.status ++ [.fail "closed"] }, hkind, hp, rfl,
      rfl, rfl, ?_⟩
    rw [close, get_eq hx]
    simp [ok_bind_eq, hkind, hp, hnotify]
  · refine ⟨x, hkind, hp, rfl, rfl, rfl, ?_⟩
    rw [set_eq_self hx]
    exact close_local_unpeered hx fuel hkind hp (by simpa using hnotify)

variable (hy : a.heap p = some y)
include hy

theorem remoteSocketShutdown_eq {t : TransportPtr} (ht : y.transport = some t)
    (hs : y.peer = some s) :
    a.remoteSocketShutdown p = .ok (a.sendPacket t ⟨.clse, x.id, y.id, []⟩) := by
  rw [remoteSocketShutdown, get_eq hy]
  show (follow y.transport >>= _) = _
  rw [ht, hs]
  show (a.get s >>= _) >>= _ = _
  rw [get_eq hx]
  rfl

/-- A remote or smart socket goes with the local one that is its peer. -/
theorem close_peer_other (fuel : Nat) (hne : p ≠ s) (hkind : y.kind ≠ .local) :
    (do
      let a ← a.modify p fun y => { y with peer := none }
      let a ← close (fuel + 1) a p
      a.modify s fun x => { x with peer := none }) =
    .ok (a.cut s p x none) := by
  have hp := set_heap_self a p { y with peer := none }
  rw [modify_eq hy]
  show (close (fuel + 1) _ p >>= _) = _
  rw [close_other_unpeered hp fuel hkind rfl, free_eq hp]
  show modify _ s _ = _
  rw [modify_eq (x := x) (by simp [set, hne.symm, hx])]
  simp [cut, set]

/-- A local socket is retired with the local one that is its peer. -/
theorem close_peer_local (fuel : Nat) (hne : p ≠ s) (hkind : y.kind = .local)
    (hnotify : y.notify = false) (hlists : p ∈ a.localSocketList ∨ p ∈ a.localSocketClosingList)
    (hready : y.sock.closesNow = true ∨ y.sock.fdeWrite = true) :
    (do
      let a ← a.modify p fun y => { y with peer := none }
      let a ← close (fuel + 1) a p
      a.modify s fun x => { x with peer := none }) =
    .ok ((a.cut s p x (some { y with peer := none })).retired p
      { y with peer := none }) := by
  have hp := set_heap_self a p { y with peer := none }
  rw [modify_eq hy]
  show (close (fuel + 1) _ p >>= _) = _
  rw [close_local_unpeered hp fuel hkind rfl hnotify, retire_eq hp hlists hready]
  show modify _ s _ = _
  rw [modify_eq (by
    rw [retired_heap_of_ne _ _ hne.symm, set_heap_of_ne _ _ hne.symm, hx])]
  unfold Server.retired
  split <;> simp [cut, set, destroyed, parked, update_comm hne]

variable (hkind : x.kind = .local) (hp : x.peer = some p)
include hkind hp

theorem close_local_peered (fuel : Nat) (hnotify : x.notify = false) {b : Server}
    (hb : (if y.kind = .remote then a.remoteSocketShutdown p else .ok a) = .ok b) :
    close (fuel + 1) a s = (do
      let b ← b.modify p fun y => { y with peer := none }
      let b ← close fuel b p
      b.modify s fun x => { x with peer := none }) >>= fun b => b.retire s := by
  rw [close, get_eq hx]
  simp only [ok_bind_eq, hkind, hp, hnotify, Option.elim, Bool.false_eq_true, if_false,
    get_eq hy]
  split at hb
  · rw [if_pos ‹_›, hb, ok_bind_eq]
  · obtain rfl : a = b := Except.ok.inj hb
    rw [if_neg ‹_›]

/-- The connection is cut before a local socket with a remote or smart peer is retired. -/
theorem close_with_other (fuel : Nat) (h : Inv U a) (hy' : y.kind ≠ .local) :
    ∃ sent, close (fuel + 2) a s =
      ({ a with sent := sent }.cut s p x none).retire s := by
  -- a remote peer sends `A_CLSE` before
  obtain ⟨sent, hb⟩ : ∃ sent, (if y.kind = .remote then a.remoteSocketShutdown p else .ok a) =
      .ok { a with sent := sent } := by
    split
    · rename_i hk
      obtain ⟨t, ht⟩ := (h.good p y hy).transport hk
      exact ⟨_, remoteSocketShutdown_eq hx hy ht (h.peer_eq hy hx hp)⟩
    · exact ⟨a.sent, rfl⟩
  refine ⟨sent, ?_⟩
  rw [close_local_peered hx hy hkind hp (fuel + 1) ((h.localOk hx hkind).open_of_peer hp).2 hb,
    close_peer_other (a := { a with sent := sent }) hx hy fuel ((h.good s x hx).peer p hp).1 hy']
  rfl

/-- A local peer is retired before. -/
theorem close_with_local (fuel : Nat) (h : Inv U a) (hy' : y.kind = .local) :
    close (fuel + 2) a s = ((a.cut s p x (some { y with peer := none })).retired p
      { y with peer := none }).retire s := by
  have hne := ((h.good s x hx).peer p hp).1
  have hok := h.localOk hy hy'
  rw [close_local_peered hx hy hkind hp (fuel + 1) ((h.localOk hx hkind).open_of_peer hp).2
      (if_neg (by simp [hy'])),
    close_peer_local hx hy fuel hne hy' (hok.open_of_peer (h.peer_eq hy hx hp)).2
      (h.mem_lists hy hy') hok.ready]
  rfl

end

/-- The end of `local_socket_close`, in a server `b` in which the peer is gone already. -/
theorem Closed.of_retired {b : Server} {z : Asocket} (hkind : z.kind = .local)
    (hsock : z.sock = x.sock) (hnodup : b.localSocketList.Nodup)
    (hframe : ∀ q, q ≠ s → x.peer ≠ some q → b.heap q = a.heap q)
    (hlist : ∀ q, q ∈ b.localSocketList ↔ q ∈ a.localSocketList ∧ x.peer ≠ some q)
    (hsub : b.localSocketList.Sublist a.localSocketList) (ht : b.transports = a.transports)
    (hpeer : ∀ p y, x.peer = some p → a.heap p = some y → y.kind = .local → p ≠ s ∧
      b.heap p = if y.sock.closesNow then none
        else some { y with peer := none, id := 0, sock := y.sock.startClosing }) :
    Closed s x a (b.retired s z) where
  frame q hqs hqp := (retired_heap_of_ne b z hqs).trans (hframe q hqs hqp)
  list q := by
    rw [retired_localSocketList, hnodup.mem_erase_iff, hlist]
    tauto
  sublist := by
    rw [retired_localSocketList]
    exact erase_sublist.trans hsub
  transports := (retired_transports b s z).trans ht
  gone hnow := by
    rw [retired_heap_self, hsock, if_pos hnow]
  self := by
    have hself := retired_heap_self b s z
    split at hself
    · exact .inl hself
    · exact .inr ⟨_, hself, hkind, rfl⟩
  peer p y hp hy hk := by
    obtain ⟨hne, hheap⟩ := hpeer p y hp hy hk
    rw [retired_heap_of_ne b z hne, hheap]

/-- Closing a local socket does not fail, leaves all sockets settled, and touches no socket
but the closed one and its peer. -/
theorem Inv.closeSocket (h : Inv (only s) a) (hx : a.heap s = some x) (hkind : x.kind = .local) :
    ∃ a', a.closeSocket s = .ok a' ∧ Inv idle a' ∧ Closed s x a a' := by
  cases hp : x.peer with
  | none =>
    obtain ⟨x', hkind', hp', hid, hsock, ht, hclose⟩ := close_without_peer hx 2 hkind hp
    have hset : Inv (only s) (a.set s x') := by
      have hok := h.localOk hx hkind
      exact h.set hx (hkind'.trans hkind.symm) (hp'.trans hp.symm) hid (by rw [hsock])
        (fun _ => ht) (fun _ _ => hp') (fun _ _ => Iff.rfl) (fun _ => absurd rfl)
        (fun _ _ => hsock ▸ hok.ready)
    obtain ⟨hok, hinv⟩ := hset.retire (set_heap_self a s x') hkind' hp'
    refine ⟨_, hclose.trans hok, hinv, .of_retired hkind' hsock h.localNodup
      (fun q hqs _ => set_heap_of_ne a x' hqs) ?_ (Sublist.refl _) rfl ?_⟩
    · intro q
      show q ∈ a.localSocketList ↔ _
      simp [hp]
    · intro p y hpeer
      rw [hp] at hpeer
      cases hpeer
  | some p =>
    obtain ⟨hne, y, hy, hys, -⟩ := (h.good s x hx).peer p hp
    have hother : ∀ q, x.peer ≠ some q → q ≠ p := fun q hq heq => hq (heq ▸ hp)
    by_cases hy' : y.kind = .local
    · have hcut := h.cut hx hkind hp hy (.inr ⟨hy', rfl⟩) (V := both s p)
        (fun q hqs hqp => by simp [hqp]) (.inl rfl) (fun _ => .inr rfl)
      have hpeer := hcut.retired (cut_heap_peer a x _ hne) hy' rfl (.inr rfl) (V := only s)
        (fun q hqp => by simp [hqp]) hne
      obtain ⟨hok, hinv⟩ := hpeer.retire ((retired_heap_of_ne _ _ hne.symm).trans
        (cut_heap_self a s p x _)) hkind rfl
      refine ⟨_, (close_with_local hx hy hkind hp 1 h hy').trans hok, hinv,
        .of_retired hkind rfl hpeer.localNodup ?_ ?_ ?_ (retired_transports ..) ?_⟩
      · intro q hqs hqp
        rw [retired_heap_of_ne _ _ (hother q hqp), cut_heap_of_ne _ _ _ hqs (hother q hqp)]
      · intro q
        rw [retired_localSocketList]
        show q ∈ a.localSocketList.erase p ↔ _
        rw [h.localNodup.mem_erase_iff, hp, and_comm, ne_eq, ne_eq, some.injEq, eq_comm]
      · rw [retired_localSocketList]
        exact erase_sublist
      · intro p' y' hp' hy'' _
        obtain rfl := mem_unique hp hp'
        obtain rfl := mem_unique hy hy''
        exact ⟨hne, retired_heap_self ..⟩
    · obtain ⟨sent, hclose⟩ := close_with_other hx hy hkind hp 1 h hy'
      have hsent : Inv (only s) { a with sent := sent } := h.congr rfl rfl rfl rfl rfl
      have hcut := hsent.cut hx hkind hp hy (.inl ⟨hy', rfl⟩)
        (fun q _ _ => Iff.rfl) rfl (fun hk => absurd hk hy')
      obtain ⟨hok, hinv⟩ := hcut.retire (cut_heap_self _ s p x _) hkind rfl
      refine ⟨_, hclose.trans hok, hinv, .of_retired hkind rfl h.localNodup
        (fun q hqs hqp => cut_heap_of_ne _ _ _ hqs (hother q hqp)) ?_ (Sublist.refl _) rfl ?_⟩
      · intro q
        have hmem : p ∉ a.localSocketList := by
          rw [h.mem_local]
          rintro ⟨z, hz, hk, -⟩
          obtain rfl := mem_unique hy hz
          exact hy' hk
        refine ⟨fun hq => ⟨hq, fun hqp => ?_⟩, And.left⟩
        obtain rfl := mem_unique hp hqp
        exact hmem hq
      · intro p' y' hp' hy'' hk
        obtain rfl := mem_unique hp hp'
        obtain rfl := mem_unique hy hy''
        exact absurd hk hy'

/-! ### Closing a smart socket or a tracker -/

/-- A socket other than a local one is only freed when it has no peer. -/
theorem closeSocket_unpeered (hx : a.heap s = some x) (hkind : x.kind ≠ .local)
    (hpeer : x.peer = none) :
    a.closeSocket s = .ok { a with heap := update a.heap s none } :=
  (close_other_unpeered hx 2 hkind hpeer).trans (free_eq hx)

/-- It takes the local one that is its peer with it. -/
theorem Inv.closeOther (h : Inv idle a) (hx : a.heap s = some x) (hkind : x.kind ≠ .local)
    (hp : x.peer = some p) : ∃ a', a.closeSocket s = .ok a' ∧ Inv idle a' ∧
      a'.heap s = none ∧
      ∀ y, a.heap p = some y → y.sock.closesNow = true → a'.heap p = none := by
  obtain ⟨hne, y, hy, hys, hkinds⟩ := (h.good s x hx).peer p hp
  have hy' : y.kind = .local := hkinds.resolve_left hkind
  have hok := h.localOk hy hy'
  have hp' := set_heap_self a p { y with peer := none }
  have hclose : a.closeSocket s = .ok ((a.cut p s y none).retired p
      { y with peer := none }) := by
    have hfree : ((a.set p { y with peer := none }).retired p
          { y with peer := none }).free s
        = .ok ((a.cut p s y none).retired p { y with peer := none }) := by
      rw [free_eq (by
        rw [retired_heap_of_ne _ _ hne.symm, set_heap_of_ne _ _ hne.symm, hx])]
      unfold Server.retired
      split <;> simp [Server.cut, Server.set, destroyed, parked, update_comm hne.symm]
    rw [Server.closeSocket, close, get_eq hx]
    cases hk : x.kind with
    | «local» => exact absurd hk hkind
    | remote | smart | tracker =>
      simp only [ok_bind_eq, hk, hp, Option.elim, modify_eq hy,
        close_local_unpeered hp' 1 hy' rfl (hok.open_of_peer hys).2,
        retire_eq hp' (h.mem_lists hy hy') hok.ready]
      exact hfree
  have hcut := (h.unsettle p).cut hy hy' hys hx (.inl ⟨hkind, rfl⟩)
    (fun q _ _ => Iff.rfl) rfl (fun hk => absurd hk hkind)
  obtain ⟨-, hinv⟩ := hcut.retire (cut_heap_self _ p s y _) hy' rfl
  refine ⟨_, hclose, hinv, ?_, fun z hz hnow => ?_⟩
  · exact (retired_heap_of_ne _ _ hne.symm).trans (cut_heap_peer _ _ _ hne.symm)
  · obtain rfl := mem_unique hy hz
    exact (retired_heap_self ..).trans (if_pos hnow)

end Server

end AndroidCore.Adb
