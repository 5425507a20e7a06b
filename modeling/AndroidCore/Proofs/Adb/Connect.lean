import AndroidCore.Proofs.Adb.Close

/-!
# `AndroidCore.Proofs.Adb.Connect`: new sockets and new connections

Sockets are created in five places: for a client, for a forwarded port, for a service that
the other side opens, for a service of the host, and for a client that tracks devices.
`Inv.newLocal` is about the socket alone, `Inv.link` gives a local socket without a peer a new
one that is not local, and `Inv.handOver` is the smart socket that leaves its peer to the socket
of a service.

`Safe` is what all steps of the server are measured by: the server may abort, but it does not
touch a socket that is gone.
-/

namespace AndroidCore.Adb

open Function Lib Option

/-- The server aborts, or a call returns a result that `P` holds of. -/
def Safe {β : Type} (P : β → Prop) (r : Except Fault β) : Prop :=
  r = .error .fatal ∨ ∃ b, r = .ok b ∧ P b

variable {β : Type} {P : β → Prop}

theorem Safe.ok {b : β} (h : P b) : Safe P (.ok b) :=
  .inr ⟨b, rfl, h⟩

theorem Safe.of_eq {r : Except Fault β} {b : β} (hr : r = .ok b) (h : P b) : Safe P r :=
  .inr ⟨b, hr, h⟩

theorem Safe.imp {Q : β → Prop} {r : Except Fault β} (h : Safe P r) (hPQ : ∀ b, P b → Q b) :
    Safe Q r :=
  Or.imp_right (fun ⟨b, hr, hb⟩ => ⟨b, hr, hPQ b hb⟩) h

theorem Safe.bind {γ : Type} {Q : γ → Prop} {r : Except Fault β} {f : β → Except Fault γ}
    (h : Safe P r) (hf : ∀ b, P b → Safe Q (f b)) : Safe Q (r >>= f) := by
  rcases h with rfl | ⟨b, rfl, hb⟩
  · exact .inl rfl
  · exact hf b hb

theorem Safe.ite {c : Prop} [Decidable c] {r r' : Except Fault β} (h : c → Safe P r)
    (h' : ¬ c → Safe P r') : Safe P (if c then r else r') := by
  split
  · exact h ‹_›
  · exact h' ‹_›

namespace Server

variable {a : Server} {s : Ptr} {x : Asocket}

/-! ### Settled sockets -/

/-- A settled local socket without a peer has nothing in its queue, or is closing. -/
theorem Settled.queue_eq_nil (h : Settled a x) (hopen : x.sock.closing = false)
    (hpeer : x.peer = none) : x.sock.pktQueue = [] := by
  by_contra hqueue
  obtain ⟨p, -, hp, -⟩ := h.connected hqueue hopen
  rw [hpeer] at hp
  cases hp

theorem Settled.fdeWrite_eq_false (h : Settled a x) (hqueue : x.sock.pktQueue = []) :
    x.sock.fdeWrite = false := by
  have hwrite := h.fdeWrite
  rw [hqueue] at hwrite
  simpa using hwrite

variable {y : Asocket}

theorem Settled.congr (h : Settled a x) (hsock : y.sock = x.sock) (hpeer : y.peer = x.peer) :
    Settled a y := by
  refine ⟨?_, ?_, ?_, ?_⟩ <;> rw [hsock]
  · exact h.noError
  · exact h.fdeWrite
  · exact h.closing
  · rw [hpeer]
    exact h.connected

/-- What is needed of a local socket with an empty queue. -/
theorem Settled.of_queue_eq_nil (hnoError : x.sock.hasWriteError = false)
    (hwrite : x.sock.fdeWrite = false) (hopen : x.sock.closing = false)
    (hqueue : x.sock.pktQueue = []) : Settled a x :=
  ⟨hnoError, by simp [hwrite, hqueue], by simp [hopen], fun hne => absurd hqueue hne⟩

/-! ### `ready` -/

/-- A call leaves everything but one socket and what was sent. -/
structure Touches (s : Ptr) (a a' : Server) : Prop where
  frame : ∀ q, q ≠ s → a'.heap q = a.heap q
  localList : a'.localSocketList = a.localSocketList
  closingList : a'.localSocketClosingList = a.localSocketClosingList
  transports : a'.transports = a.transports

/-- A local socket that is ready for data from its peer. -/
def readied (x : Asocket) : Asocket :=
  let x := if x.notify then { x with notify := false, status := x.status ++ [.okay] } else x
  { x with sock := { x.sock with fdeRead := true } }

theorem ready_local (hx : a.heap s = some x) (hkind : x.kind = .local) :
    a.ready s = .ok (a.set s (readied x)) := by
  rw [ready, get_eq hx]
  obtain ⟨id, kind, notify, peer, transport, sock, status⟩ := x
  obtain rfl : kind = .local := hkind
  rfl

theorem readied_shape (x : Asocket) : (readied x).kind = x.kind ∧ (readied x).peer = x.peer ∧
    (readied x).id = x.id ∧ (readied x).transport = x.transport ∧
    (readied x).notify = false ∧ (readied x).sock = { x.sock with fdeRead := true } := by
  unfold readied
  by_cases hnotify : x.notify = true
  · simp [hnotify]
  · simp [hnotify]

/-- `ready` does not fail. -/
theorem Inv.ready (h : Inv idle a) (hx : a.heap s = some x) :
    ∃ a', a.ready s = .ok a' ∧ Inv idle a' ∧ Touches s a a' ∧
      ∃ x', a'.heap s = some x' ∧ x'.kind = x.kind := by
  cases hkind : x.kind with
  | «local» =>
    obtain ⟨hk, hp, hid, ht, hn, hs⟩ := readied_shape x
    have hsettled := (h.localOk hx hkind).settled not_false
    refine ⟨_, ready_local hx hkind, ?_, ⟨fun q => set_heap_of_ne a _, rfl, rfl, rfl⟩,
      readied x, set_heap_self a s _, hk.trans hkind⟩
    refine h.set hx hk hp hid (by rw [hs]) (fun _ => ht) (by simp [hn]) (fun _ _ => Iff.rfl)
      (fun _ _ => ?_) (fun _ => False.elim)
    refine ⟨?_, ?_, ?_, ?_⟩ <;> rw [hs]
    · exact hsettled.noError
    · exact hsettled.fdeWrite
    · exact hsettled.closing
    · rw [hp]
      exact hsettled.connected
  | remote =>
    obtain ⟨p, hp⟩ := (h.good s x hx).hasPeer (by simp [hkind])
    obtain ⟨-, y, hy, -⟩ := (h.good s x hx).peer p hp
    obtain ⟨t, ht⟩ := (h.good s x hx).transport hkind
    have hready : a.ready s = .ok (a.sendPacket t ⟨.okay, y.id, x.id, []⟩) := by
      rw [Server.ready, get_eq hx]
      simp only [ok_bind_eq, hkind, hp, follow, Option.elim, get_eq hy, ht]
      rfl
    exact ⟨_, hready, h.sendPacket _ _, ⟨fun _ _ => rfl, rfl, rfl, rfl⟩, x, hx, hkind⟩
  | smart | tracker =>
    have hready : a.ready s = .ok a := by
      rw [Server.ready, get_eq hx]
      simp only [ok_bind_eq, hkind]
      rfl
    exact ⟨a, hready, h, ⟨fun _ _ => rfl, rfl, rfl, rfl⟩, x, hx, hkind⟩

/-! ### New sockets -/

/-- The socket that `create_local_socket` makes. -/
def freshLocal (a : Server) : Asocket :=
  ⟨a.localSocketNextId, .local, false, none, none, .new, []⟩

/-- The server with a new local socket. -/
def newLocal (a : Server) : Server :=
  { a with
    heap := update a.heap a.nextPtr (some a.freshLocal)
    nextPtr := a.nextPtr + 1
    localSocketNextId := a.localSocketNextId + 1
    localSocketList := a.localSocketList ++ [a.nextPtr] }

theorem newLocal_heap_self (a : Server) : a.newLocal.heap a.nextPtr = some a.freshLocal := by
  simp [newLocal]

variable {q : Ptr}

theorem newLocal_heap_of_ne (a : Server) (hq : q ≠ a.nextPtr) : a.newLocal.heap q = a.heap q := by
  simp [newLocal, hq]

/-- `create_local_socket` aborts when it runs out of ids. -/
theorem Inv.createLocalSocket (h : Inv idle a) :
    a.createLocalSocket = .error .fatal ∨
      (a.createLocalSocket = .ok (a.newLocal, a.nextPtr) ∧ a.localSocketNextId + 1 < 2 ^ 32) := by
  have hlt := h.nextId_lt
  unfold Server.createLocalSocket
  by_cases hlast : a.localSocketNextId + 1 = 2 ^ 32
  · simp [alloc, hlast]
  · right
    have hmod : (a.localSocketNextId + 1) % 2 ^ 32 = a.localSocketNextId + 1 :=
      Nat.mod_eq_of_lt (by omega)
    refine ⟨?_, by omega⟩
    show (if (a.localSocketNextId + 1) % 2 ^ 32 = 0 then _ else _) = _
    simp only [hmod]
    rfl

variable {U : Ptr → Prop}

/-- A pointer that was allocated is not the next one. -/
theorem Inv.ne_nextPtr (h : Inv U a) (hx : a.heap s = some x) : s ≠ a.nextPtr :=
  Nat.ne_of_lt (h.allocated hx)

theorem Inv.nextPtr_free (h : Inv U a) : a.heap a.nextPtr = none :=
  h.fresh _ (Nat.le_refl _)

/-- A new local socket keeps the invariant. -/
theorem Inv.newLocal (h : Inv idle a) (hid : a.localSocketNextId + 1 < 2 ^ 32) :
    Inv idle a.newLocal := by
  have hfree := h.nextPtr_free
  have hnotLocal : a.nextPtr ∉ a.localSocketList := by
    rw [h.mem_local]
    rintro ⟨x, hx, -⟩
    rw [hfree] at hx
    cases hx
  have hnotClosing : a.nextPtr ∉ a.localSocketClosingList := by
    rw [h.mem_closing]
    rintro ⟨x, hx, -⟩
    rw [hfree] at hx
    cases hx
  have hheap : ∀ z, a.newLocal.heap a.nextPtr = some z → z = a.freshLocal := by
    intro z hz
    rw [newLocal_heap_self] at hz
    exact (some.inj hz).symm
  refine h.change ⟨fun q => newLocal_heap_of_ne a, Nat.le_succ _, ?_,
    Nat.le_succ _, hid, ?_, h.closingNodup, ?_, fun _ _ => Iff.rfl, ?_, ?_, fun _ _ => Iff.rfl,
    ?_, ?_, ?_⟩
  case refine_1 =>
    rintro q rfl
    exact Nat.lt_succ_self _
  case refine_2 =>
    show (a.localSocketList ++ [a.nextPtr]).Nodup
    rw [← List.concat_eq_append]
    exact h.localNodup.concat hnotLocal
  case refine_3 =>
    intro q hq
    show q ∈ a.localSocketList ++ [a.nextPtr] ↔ _
    simp [show q ≠ a.nextPtr from hq]
  case refine_4 =>
    rintro q rfl
    refine iff_of_true (by simp [Server.newLocal]) ?_
    exact ⟨a.freshLocal, newLocal_heap_self a, rfl, rfl⟩
  case refine_5 =>
    rintro q rfl
    refine iff_of_false hnotClosing ?_
    rintro ⟨z, hz, -, hc⟩
    rw [hheap z hz] at hc
    cases hc
  case refine_6 =>
    rintro q z rfl hz
    rw [hheap z hz]
    refine ⟨by simp [freshLocal], fun _ => ?_, fun hk => absurd rfl hk, by simp [freshLocal],
      by simp [freshLocal]⟩
    refine ⟨by simp [freshLocal], fun _ => rfl, fun _ => h.nextId_pos,
      fun _ => Nat.lt_succ_self _, fun _ => ?_, False.elim⟩
    exact .of_queue_eq_nil rfl rfl rfl rfl
  case refine_7 =>
    rintro q z p - hz hp rfl
    obtain ⟨-, y, hy, -⟩ := (h.good q z hz).peer _ hp
    rw [hfree] at hy
    cases hy
  case refine_8 =>
    rintro q z rfl ⟨hz, -⟩
    rw [hheap z hz]
    exact .inr ⟨rfl, rfl⟩

/-! ### New connections -/

/-- A local socket `s` gets a new peer. -/
def linked (a : Server) (s : Ptr) (x z : Asocket) : Server :=
  { a with
    heap := update (update a.heap a.nextPtr (some z)) s (some x)
    nextPtr := a.nextPtr + 1 }

/-- A local socket without a peer gets one that is not local. -/
theorem Inv.link (h : Inv idle a) (hx : a.OpenAt s x) (hpeer : x.peer = none)
    {v z : Asocket} (hkind : v.kind = .local) (hpeer' : v.peer = some a.nextPtr)
    (hid : v.id = x.id) (hnotify : v.notify = false)
    (hsock : v.sock = x.sock ∨ v.sock = { x.sock with fdeRead := true })
    (hz : z.kind ≠ .local) (hzpeer : z.peer = some s)
    (htransport : z.kind = .remote → ∃ t, z.transport = some t)
    (hsmart : z.kind = .smart → z.id = 0) :
    Inv idle (a.linked s v z) := by
  have hne := h.ne_nextPtr hx.1
  have hok := h.localOk hx.1 hx.2.1
  have hsettled := hok.settled not_false
  have hqueue := hsettled.queue_eq_nil hx.2.2 hpeer
  have hwrite := hsettled.fdeWrite_eq_false hqueue
  have hfree := h.nextPtr_free
  have hs : (a.linked s v z).heap s = some v := by simp [linked]
  have hr : (a.linked s v z).heap a.nextPtr = some z := by simp [linked, hne.symm]
  have hclosing : v.sock.closing = false := by
    rcases hsock with hsock | hsock <;> rw [hsock] <;> exact hx.2.2
  refine h.changeInPlace (D := both s a.nextPtr) rfl rfl rfl (Nat.le_succ _) ?_ ?_ ?_
    (fun _ _ => Iff.rfl) ?_ ?_
  case refine_1 =>
    intro q hq
    rw [not_or] at hq
    simp [linked, hq.1, hq.2]
  case refine_2 =>
    rintro q (rfl | rfl)
    · exact Nat.lt_succ_of_lt (h.allocated hx.1)
    · exact Nat.lt_succ_self _
  case refine_3 =>
    rintro q (rfl | rfl) closing id
    · simp [LocalAt, hx.1, hs, hkind, hx.2.1, hclosing, hx.2.2, hid]
    · simp [LocalAt, hfree, hr, hz]
  case refine_4 =>
    rintro q w (rfl | rfl) hw
    · obtain rfl := mem_unique hs hw
      refine ⟨?_, fun _ => ?_, fun hk => absurd hkind hk, by simp [hkind], by simp [hkind]⟩
      · intro p hp
        obtain rfl := mem_unique hpeer' hp
        exact ⟨hne.symm, z, hr, hzpeer, .inl hkind⟩
      · refine ⟨?_, ?_, ?_, ?_, fun _ => ?_, False.elim⟩
        · simp [hnotify]
        · simp [hclosing]
        · intro _
          rw [hid]
          exact hok.id_pos hx.2.2
        · intro _
          rw [hid]
          exact hok.id_lt hx.2.2
        · rcases hsock with hsock | hsock
          · exact .of_queue_eq_nil (hsock ▸ hsettled.noError) (hsock ▸ hwrite) hclosing
              (hsock ▸ hqueue)
          · exact .of_queue_eq_nil (by rw [hsock]; exact hsettled.noError)
              (by rw [hsock]; exact hwrite) hclosing (by rw [hsock]; exact hqueue)
    · obtain rfl := mem_unique hr hw
      refine ⟨?_, fun hk => absurd hk hz, fun _ => ⟨s, hzpeer⟩, htransport, hsmart⟩
      intro p hp
      obtain rfl := mem_unique hzpeer hp
      exact ⟨hne, v, hs, hpeer', .inr hkind⟩
  case refine_5 =>
    rintro q w p hq hw hp (rfl | rfl)
    · rw [h.peer_eq hx.1 hw hp] at hpeer
      cases hpeer
    · obtain ⟨-, y, hy, -⟩ := (h.good q w hw).peer _ hp
      rw [hfree] at hy
      cases hy

/-! ### A smart socket hands its peer over -/

/-- The peer `q` of the smart socket `s` is bound to a new local socket, and `s` is freed. -/
def handedOver (a : Server) (s q : Ptr) (y : Asocket) : Server :=
  { a.newLocal with
    heap := update (update (update a.heap a.nextPtr
      (some { a.freshLocal with peer := some q })) q
      (some { y with status := y.status ++ [.okay], notify := false, peer := some a.nextPtr })) s
      none }

theorem handedOver_heap_peer (a : Server) (y : Asocket) (hqs : q ≠ s) :
    (a.handedOver s q y).heap q = some { y with
      status := y.status ++ [.okay], notify := false, peer := some a.nextPtr } := by
  simp [handedOver, hqs]

theorem handedOver_heap_new (h : Inv U a) (hx : a.heap s = some x) (hy : a.heap q = some y) :
    (a.handedOver s q y).heap a.nextPtr = some { a.freshLocal with peer := some q } := by
  simp [handedOver, (h.ne_nextPtr hx).symm, (h.ne_nextPtr hy).symm]

/-- The peer of a smart socket is a local one with nothing to write. -/
theorem Inv.smart_peer (h : Inv idle a) (hx : a.heap s = some x) (hkind : x.kind = .smart)
    (hq : x.peer = some q) : q ≠ s ∧ ∃ y, a.OpenAt q y ∧ y.peer = some s ∧
      y.sock.hasWriteError = false ∧ y.sock.fdeWrite = false ∧ y.sock.pktQueue = [] := by
  obtain ⟨hne, y, hy, hys, hkinds⟩ := (h.good s x hx).peer q hq
  have hy' : y.kind = .local := hkinds.resolve_left (by simp [hkind])
  have hok := h.localOk hy hy'
  have hopen := (hok.open_of_peer hys).1
  have hsettled := hok.settled not_false
  have hqueue : y.sock.pktQueue = [] := by
    by_contra hne
    obtain ⟨p, w, hp, hw, hsmart⟩ := hsettled.connected hne hopen
    obtain rfl := mem_unique hys hp
    obtain rfl := mem_unique hx hw
    exact hsmart hkind
  exact ⟨hne, y, ⟨hy, hy', hopen⟩, hys, hsettled.noError, hsettled.fdeWrite_eq_false hqueue, hqueue⟩

theorem Inv.handOver (h : Inv idle a) (hid : a.localSocketNextId + 1 < 2 ^ 32)
    (hx : a.heap s = some x) (hkind : x.kind = .smart) (hq : x.peer = some q)
    (hy : a.heap q = some y) : Inv idle (a.handedOver s q y) := by
  obtain ⟨hqs, w, hw, hys, hnoError, hwrite, hqueue⟩ := h.smart_peer hx hkind hq
  obtain rfl := mem_unique hy hw.1
  have hy' : y.kind = .local := hw.2.1
  have hopen : y.sock.closing = false := hw.2.2
  have hok := h.localOk hy hy'
  have hs2 := h.ne_nextPtr hx
  have hq2 := h.ne_nextPtr hy
  have hnew := h.newLocal hid
  have hheaps : (a.handedOver s q y).heap s = none := by simp [handedOver]
  have hheapq := a.handedOver_heap_peer y hqs
  have hheap2 := handedOver_heap_new h hx hy
  have hxnew := (newLocal_heap_of_ne a hs2).trans hx
  have hynew := (newLocal_heap_of_ne a hq2).trans hy
  refine hnew.changeInPlace (D := fun r => r = s ∨ r = q ∨ r = a.nextPtr) rfl rfl rfl
    (Nat.le_refl _) ?_ ?_ ?_ (fun _ _ => Iff.rfl) ?_ ?_
  case refine_1 =>
    intro r hr
    rw [not_or, not_or] at hr
    simp [handedOver, Server.newLocal, hr.1, hr.2.1, hr.2.2]
  case refine_2 =>
    rintro r (rfl | rfl | rfl)
    · exact hnew.allocated hxnew
    · exact hnew.allocated hynew
    · exact hnew.allocated (newLocal_heap_self a)
  case refine_3 =>
    rintro r (rfl | rfl | rfl) closing id
    · simp [LocalAt, hxnew, hheaps, hkind]
    · simp [LocalAt, hynew, hheapq]
    · simp [LocalAt, newLocal_heap_self, hheap2]
  case refine_4 =>
    rintro r w (rfl | rfl | rfl) hw
    · rw [hheaps] at hw
      cases hw
    · obtain rfl := mem_unique hheapq hw
      refine ⟨?_, fun _ => ?_, fun hk => absurd hy' hk, by simp [hy'], by simp [hy']⟩
      · rintro p ⟨⟩
        exact ⟨hq2.symm, _, hheap2, rfl, .inl hy'⟩
      · refine ⟨by simp, fun hc => ?_, hok.id_pos,
          fun hc => Nat.lt_succ_of_lt (hok.id_lt hc), fun _ => ?_, False.elim⟩
        · rw [show y.sock.closing = true from hc] at hopen
          cases hopen
        · exact .of_queue_eq_nil hnoError hwrite hopen hqueue
    · obtain rfl := mem_unique hheap2 hw
      refine ⟨?_, fun _ => ?_, fun hk => absurd rfl hk, by simp [freshLocal],
        by simp [freshLocal]⟩
      · rintro p ⟨⟩
        exact ⟨hq2, _, hheapq, rfl, .inl rfl⟩
      · refine ⟨by simp [freshLocal], by simp [freshLocal, LocalSocket.new],
          fun _ => h.nextId_pos, fun _ => Nat.lt_succ_self _, fun _ => ?_, False.elim⟩
        exact .of_queue_eq_nil rfl rfl rfl rfl
  case refine_5 =>
    -- no fourth socket has one of the three as its peer
    rintro r v p hr hv hp (rfl | rfl | rfl)
    · exact absurd (.inr (.inl (mem_unique (hnew.peer_eq hxnew hv hp) hq))) hr
    · exact absurd (.inl (mem_unique (hnew.peer_eq hynew hv hp) hys)) hr
    · cases hnew.peer_eq (newLocal_heap_self a) hv hp

end Server

end AndroidCore.Adb
