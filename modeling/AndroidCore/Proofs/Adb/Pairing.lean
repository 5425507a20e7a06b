import AndroidCore.Proofs.Adb.Packets

/-!
# `AndroidCore.Proofs.Adb.Pairing`: sockets over a whole run

Every event keeps the invariant of the sockets, with the exceptions that `Events` is about: a
descriptor event whose data goes to a local peer that cannot be written, or completes a request
to track devices of a client that cannot be written (`Hazard`). The handler then works on a
socket that is gone, and frees it again when the stream has ended.

`run_paired_iff` is the result over every sequence of events: the server does not touch a
socket that is gone and keeps its sockets paired, exactly when no event of the run is of
that kind.
-/

namespace AndroidCore.Adb

open Lib List Option

namespace Server

variable {a : Server} {s : Ptr} {x : Asocket}

/-- Pointers to peers lead back, the ids on the local list are not 0 and differ, and a socket
on the closing list has no peer and something in its queue. -/
structure Paired (a : Server) : Prop where
  symmetric : ∀ s x p, a.heap s = some x → x.peer = some p →
    ∃ y, a.heap p = some y ∧ y.peer = some s
  ids : ∀ s ∈ a.localSocketList, ∃ x, a.heap s = some x ∧ x.id ≠ 0
  unique : ∀ s ∈ a.localSocketList, ∀ s' ∈ a.localSocketList, ∀ x x',
    a.heap s = some x → a.heap s' = some x' → x.id = x'.id → s = s'
  nodup : a.localSocketList.Nodup
  closing : ∀ s ∈ a.localSocketClosingList, ∃ x, a.heap s = some x ∧
    x.peer = none ∧ x.sock.pktQueue ≠ []

section
variable (h : Inv idle a)
include h

theorem Inv.paired : Paired a where
  nodup := h.localNodup
  symmetric s x p hx hp := by
    obtain ⟨-, y, hy, hys, -⟩ := (h.good s x hx).peer p hp
    exact ⟨y, hy, hys⟩
  ids s hs := by
    obtain ⟨x, hx, hkind, hopen⟩ := (h.mem_local s).mp hs
    exact ⟨x, hx, Nat.ne_of_gt ((h.localOk hx hkind).id_pos hopen)⟩
  unique s hs s' hs' x x' hx hx' hid := by
    obtain ⟨y, hy⟩ := (h.mem_local s).mp hs
    obtain ⟨y', hy'⟩ := (h.mem_local s').mp hs'
    obtain rfl := mem_unique hx hy.1
    obtain rfl := mem_unique hx' hy'.1
    exact h.ids s s' x x' hy hy' hid
  closing s hs := by
    obtain ⟨x, hx, hkind, hclosing⟩ := (h.mem_closing s).mp hs
    have hok := h.localOk hx hkind
    exact ⟨x, hx, hok.closing hclosing, (hok.settled not_false).closing hclosing⟩

/-! ### New sockets -/

theorem Inv.acceptSmart : Safe (Inv idle) a.acceptSmart := by
  rw [Server.acceptSmart]
  rcases h.createLocalSocket with hfatal | ⟨hcreate, hid⟩
  · rw [hfatal]
    exact .inl rfl
  · rw [hcreate]
    have hnew := h.newLocal hid
    have hs := newLocal_heap_self a
    have hne := hnew.ne_nextPtr hs
    obtain ⟨hkind, hp, hid', -, hnotify, hsock⟩ :=
      readied_shape { a.freshLocal with peer := some a.newLocal.nextPtr }
    have hinv := hnew.link ⟨hs, rfl, rfl⟩ rfl hkind hp hid' hnotify (.inr hsock)
      (z := ⟨0, .smart, false, some a.nextPtr, none, .new, []⟩) nofun rfl nofun
      (fun _ => rfl)
    simp only [ok_bind_eq, alloc]
    rw [modify_eq (x := a.freshLocal) (by simp [hne, hs]), ok_bind_eq]
    rw [ready_local (x := { a.freshLocal with peer := some a.newLocal.nextPtr })
      (by simp [Server.set]) rfl]
    refine .ok (hinv.congr ?_ rfl rfl rfl rfl)
    simp [linked, Server.set]

theorem Inv.acceptForward (t : TransportPtr) (destination : List UInt8) :
    Safe (Inv idle) (a.acceptForward t destination) := by
  rw [Server.acceptForward]
  rcases h.createLocalSocket with hfatal | ⟨hcreate, hid⟩
  · rw [hfatal]
    exact .inl rfl
  · rw [hcreate]
    have hnew := h.newLocal hid
    have hs := newLocal_heap_self a
    have hset : Inv idle (a.newLocal.set a.nextPtr { a.freshLocal with transport := some t }) :=
      hnew.set hs rfl rfl rfl rfl nofun nofun (fun _ _ => Iff.rfl)
        (fun _ _ => .of_queue_eq_nil rfl rfl rfl rfl) nofun
    simp only [ok_bind_eq, modify_eq hs]
    have hs' := set_heap_self a.newLocal a.nextPtr { a.freshLocal with transport := some t }
    rcases connectToRemote_cases hs' rfl rfl destination with hfatal | ⟨pk, hsend⟩
    · rw [hfatal]
      exact .inl rfl
    · rw [hsend]
      exact .ok (hset.sendPacket t pk)

/-! ### One event -/

theorem Inv.handlePacket (p : Packet) (t : TransportPtr) (env : PacketEnv) :
    Safe (Inv idle) (a.handlePacket p t env) := by
  obtain ⟨target, htarget, hiff⟩ := h.packetTarget p t
  obtain ⟨b, hoffline, hb, -⟩ := h.goOffline t
  rw [Server.handlePacket, htarget]
  have hcall : ∀ s call, target = some (s, call) →
      Safe (Inv idle) (a.performCall p t env s call) := by
    intro s call hs
    obtain ⟨a', hperform, hinv, -⟩ := h.performCall ((hiff s call).mp hs) env
    exact .of_eq hperform hinv
  cases hcommand : p.command with
  | sync =>
    refine .ite (fun _ => .ok ((h.sendPacket t p).sendPacket t env.connect)) fun _ => ?_
    rw [hoffline]
    exact .ok (hb.sendPacket t p)
  | cnxn =>
    simp only [handleNewConnection]
    by_cases hoff : (a.transports t).offline = true
    · rw [if_pos hoff]
      exact .ok (h.setTransport t _)
    · rw [if_neg hoff, hoffline]
      exact .ok (hb.setTransport t _)
  | auth =>
    refine .ite (fun _ => .ok ((h.setTransport t _).sendPacket t env.authResponse)) fun _ => ?_
    rw [hoffline]
    exact .ok hb
  | «open» =>
    rcases h.handleOpen p t env with hfatal | ⟨b, hb, hinv, -⟩
    · exact .inl hfatal
    · exact .of_eq hb hinv
  | okay =>
    cases target with
    | none =>
      refine .ite (fun _ => ?_) fun _ => .ok h
      obtain ⟨found, hfound, -⟩ := h.findLocalSocket p.arg1 0
      rw [hfound]
      cases found with
      | none => exact .ok (h.sendPacket _ _)
      | some s => exact .ok h
    | some target => exact hcall target.1 target.2 rfl
  | clse | wrte | unknown =>
    cases target with
    | none => exact .ok h
    | some target => exact hcall target.1 target.2 rfl

/-- A descriptor event after which the handler works on a socket that is gone. -/
def Hazard (a : Server) : Event → Prop
  | .fdEvent s ev => a.delivers s ev = true ∧ EventHazard a s ev
  | _ => False

/-- A descriptor event is for a local socket that is there, and a writable one for a socket
that waits for it. -/
theorem Inv.delivered {ev : FdEvent} (hdelivers : a.delivers s ev = true) :
    a.Live s ∧ (ev.write = true → ∃ x, a.heap s = some x ∧ x.sock.fdeWrite = true) := by
  simp only [delivers, Bool.decide_and, Bool.and_eq_true, decide_eq_true_eq] at hdelivers
  obtain ⟨hlists, hany⟩ := hdelivers
  have hlive : a.Live s := by
    rcases hlists with hmem | hmem
    · obtain ⟨x, hx, hkind, -⟩ := (h.mem_local s).mp hmem
      exact ⟨x, hx, hkind⟩
    · obtain ⟨x, hx, hkind, -⟩ := (h.mem_closing s).mp hmem
      exact ⟨x, hx, hkind⟩
  refine ⟨hlive, fun hev => ?_⟩
  obtain ⟨x, hx, -⟩ := hlive
  rw [hx] at hany
  exact ⟨x, hx, by simpa [hev] using hany⟩

/-- An event keeps the invariant, or is a hazard and ends in a fault. -/
theorem Inv.step (e : Event) :
    (¬ Hazard a e → Safe (Inv idle) (a.step e)) ∧
      (Hazard a e → a.step e = .error .doubleFree ∨ a.step e = .error .useAfterFree) := by
  cases e with
  | packet p t env => exact ⟨fun _ => h.handlePacket p t env, nofun⟩
  | acceptSmart => exact ⟨fun _ => h.acceptSmart, nofun⟩
  | acceptForward t destination => exact ⟨fun _ => h.acceptForward t destination, nofun⟩
  | disconnect t =>
    refine ⟨fun _ => ?_, nofun⟩
    obtain ⟨a', hoffline, hinv, -⟩ := h.handleOffline t
    exact .of_eq hoffline hinv
  | trackerUpdate s devices results =>
    refine ⟨fun _ => ?_, nofun⟩
    rw [Server.step]
    cases hx : a.heap s with
    | none => exact .ok h
    | some x =>
      refine .ite (fun hany => ?_) fun _ => .ok h
      have hkind : x.kind = .tracker := by simpa using hany
      obtain ⟨q, hq⟩ := (h.good s x hx).hasPeer (by simp [hkind])
      obtain ⟨-, y, hy, -⟩ := (h.good s x hx).peer q hq
      obtain ⟨a', hsend, hinv, -⟩ := h.deviceTrackerSend hx hkind hq hy devices results
      exact .of_eq hsend hinv
  | fdEvent s ev =>
    rw [Server.step]
    by_cases hdelivers : a.delivers s ev = true
    · rw [if_pos hdelivers]
      obtain ⟨hlive, hwrite⟩ := h.delivered hdelivers
      obtain ⟨hsafe, hfault⟩ := h.localSocketEventFunc hlive ev hwrite
      exact ⟨fun hno => hsafe fun hhazard => hno ⟨hdelivers, hhazard⟩,
        fun hhazard => hfault hhazard.2⟩
    · rw [if_neg hdelivers]
      exact ⟨fun _ => .ok h, fun hhazard => absurd hhazard.1 hdelivers⟩

end

/-! ### Runs -/

theorem inv_start (transports : TransportPtr → Transport) : Inv idle (start transports) where
  fresh _ _ := rfl
  nextId_pos := Nat.one_pos
  nextId_lt := show 1 < 2 ^ 32 by decide
  localNodup := nodup_nil
  closingNodup := nodup_nil
  mem_local s := by
    refine iff_of_false not_mem_nil ?_
    rintro ⟨x, hx, -⟩
    cases hx
  mem_closing s := by
    refine iff_of_false not_mem_nil ?_
    rintro ⟨x, hx, -⟩
    cases hx
  good s x hx := by cases hx
  ids s s' x x' hx := by cases hx.1

/-- A run of the server from a state that satisfies the invariant. -/
theorem Inv.foldlM (h : Inv idle a) (events : List Event)
    (hsafe : ∀ before e after b, events = before ++ e :: after →
      before.foldlM Server.step a = .ok b → ¬ Hazard b e) :
    Safe (Inv idle) (events.foldlM Server.step a) := by
  induction events generalizing a with
  | nil => exact .ok h
  | cons e events ih =>
    rw [foldlM_cons]
    have hstep := (h.step e).1 (hsafe [] e events a rfl rfl)
    rcases hstep with hfatal | ⟨b, hb, hinv⟩
    · rw [hfatal]
      exact .inl rfl
    · rw [hb]
      refine ih hinv ?_
      intro before e' after c heq hc
      refine hsafe (e :: before) e' after c (by rw [heq]; rfl) ?_
      rw [foldlM_cons, hb]
      exact hc

/-- A run that has come to a state has not met a hazard. -/
theorem Inv.foldlM_ok (h : Inv idle a) {events : List Event} {b : Server}
    (hrun : events.foldlM Server.step a = .ok b) : Inv idle b := by
  induction events generalizing a with
  | nil =>
    obtain rfl : a = b := Except.ok.inj hrun
    exact h
  | cons e events ih =>
    rw [foldlM_cons] at hrun
    by_cases hhazard : Hazard a e
    · rcases (h.step e).2 hhazard with hfault | hfault <;>
        rw [hfault] at hrun <;> cases hrun
    · rcases (h.step e).1 hhazard with hfatal | ⟨c, hc, hinv⟩
      · rw [hfatal] at hrun
        cases hrun
      · rw [hc] at hrun
        exact ih hinv hrun

/-- The sockets of the transport `t` are closed, and no others: none is left on the local list,
each is freed or waits on the closing list until its queue is written, and every other socket is
what it was, on the list that it was on. -/
structure TransportClosed (t : TransportPtr) (a a' : Server) : Prop where
  left : ∀ s ∈ a'.localSocketList, ∃ x, a'.heap s = some x ∧ ¬ OfTransport a' t x
  closed : ∀ s ∈ a.localSocketList, ∀ x, a.heap s = some x → OfTransport a t x →
    a'.heap s = none ∨ s ∈ a'.localSocketClosingList
  others : ∀ s x, a.heap s = some x → ¬ OfTransport a t x → a'.heap s = some x ∧
    (s ∈ a'.localSocketList ↔ s ∈ a.localSocketList) ∧
    (s ∈ a'.localSocketClosingList ↔ s ∈ a.localSocketClosingList)

/-- In every state of a run, `close_all_sockets` ends, and closes the sockets of the transport and
no others. -/
theorem run_closeAllSockets (transports : TransportPtr → Transport) (events : List Event)
    (hrun : run transports events = .ok a) (t : TransportPtr) :
    ∃ a', a.closeAllSockets t = .ok a' ∧ TransportClosed t a a' := by
  have h := (inv_start transports).foldlM_ok hrun
  obtain ⟨a', hclose, hinv, hkeeps, hleft, -, hgone⟩ := h.closeAllLoop t _ (Nat.lt_succ_self _)
  refine ⟨a', hclose, fun s hs => ?_, fun s hs x hx hof => ?_, fun s x hx hnot => ?_⟩
  · obtain ⟨x, hx⟩ := (hinv.mem_local s).mp hs
    exact ⟨x, hx.1, hleft s x hx⟩
  · obtain ⟨y, hy⟩ := (h.mem_local s).mp hs
    obtain rfl := mem_unique hx hy.1
    exact (hgone s x hy hof).imp_right (hinv.mem_closing s).mpr
  · -- the lists follow from the heap
    have hx' := (hkeeps s x hx hnot).heap
    refine ⟨hx', ?_, ?_⟩
    · rw [hinv.mem_local, h.mem_local]
      simp [OpenAt, hx, hx']
    · rw [hinv.mem_closing, h.mem_closing]
      simp [ClosingAt, hx, hx']

/-- Clients of two forwarded ports, one of them on the transport that is closed. -/
theorem run_closeAllSockets_forwarded :
    ∃ a, run (fun _ => ⟨true, false, 4096⟩) [.acceptForward 0 [0x78], .acceptForward 1 [0x78]]
        = .ok a ∧ a.localSocketList = [0, 1] ∧
      ∃ a', a.closeAllSockets 0 = .ok a' ∧ TransportClosed 0 a a' :=
  ⟨_, rfl, rfl, run_closeAllSockets (fun _ => ⟨true, false, 4096⟩)
    [.acceptForward 0 [0x78], .acceptForward 1 [0x78]] rfl 0⟩

/-- In every state of a run, a negative result of `smart_socket_enqueue` means that the smart socket
and its peer are gone, exactly when it did not get a request for a transport by its number that
names no service. -/
theorem run_smartSocketEnqueue_iff (transports : TransportPtr → Transport) (events : List Event)
    (hrun : run transports events = .ok a) {s q : Ptr} {x : Asocket} {n : Nat}
    (hx : a.heap s = some x) (hkind : x.kind = .smart) (hq : x.peer = some q)
    (hn : a.getMaxPayload s = .ok n) (p : List UInt8) (answer : HostAnswer) {a' : Server} {r : Int}
    (henqueue : a.smartSocketEnqueue s p answer = .ok (a', r)) (hr : r < 0) :
    a'.heap s = none ∧ a'.heap q = none ↔ ¬ Unanswered x n p := by
  have hinv := (inv_start transports).foldlM_ok hrun
  obtain ⟨-, y, hy, -⟩ := hinv.smart_peer hx hkind hq
  by_cases hlost : LosesClient x n p answer y
  · -- the request is answered: the result is 0
    obtain ⟨b, hb, -⟩ := hinv.smartSocketEnqueue_lost hx hkind hq hy hn hlost
    obtain ⟨-, rfl⟩ := Prod.mk.inj (Except.ok.inj (hb.symm.trans henqueue))
    cases hr
  rcases hinv.smartSocketEnqueue hx hkind hq hy hn p answer hlost with
    hfatal | ⟨b, hb, -, hanswered⟩
  · cases hfatal.symm.trans henqueue
  · obtain rfl := Except.ok.inj (hb.symm.trans henqueue)
    rcases hanswered with ⟨-, hgone⟩ | ⟨hpos, -⟩
    · exact hgone
    · exact absurd hpos (Int.not_le.mpr hr)

/-- The length of the request is 0. -/
theorem run_smartSocketEnqueue_noLength :
    ∃ a a', run (fun _ => ⟨true, false, 4096⟩) [.acceptSmart] = .ok a ∧
      a.smartSocketEnqueue 1 [0x30, 0x30, 0x30, 0x30] ⟨false, none, true, [], []⟩
        = .ok (a', -1) ∧
      a'.heap 1 = none ∧ a'.heap 0 = none :=
  ⟨_, _, rfl, rfl, (run_smartSocketEnqueue_iff (fun _ => ⟨true, false, 4096⟩) [.acceptSmart] rfl rfl
    rfl rfl rfl [0x30, 0x30, 0x30, 0x30] ⟨false, none, true, [], []⟩ rfl (by decide)).mpr
    fun hbad => absurd hbad.1.2.1 (by decide)⟩

/-- `"0013host-transport-id:5"`. -/
theorem transportId_not_gone :
    ∃ a a', run (fun _ => ⟨true, false, 4096⟩) [.acceptSmart] = .ok a ∧
      a.smartSocketEnqueue 1 ([0x30, 0x30, 0x31, 0x33] ++ hostTransportId ++ [0x35])
        ⟨false, none, true, [], []⟩ = .ok (a', -1) ∧
      a'.heap 1 ≠ none ∧ 0 ∈ a'.localSocketList :=
  ⟨_, _, rfl, rfl, nofun, mem_cons_self⟩

/-- Over every sequence of events, the server uses no socket that is gone, frees none twice,
and keeps its sockets paired, exactly when it meets no hazard. -/
theorem run_paired_iff (transports : TransportPtr → Transport) (events : List Event) :
    Safe Paired (run transports events) ↔
      ∀ before e after a, events = before ++ e :: after → run transports before = .ok a →
        ¬ Hazard a e := by
  constructor
  · rintro hsafe before e after a rfl hbefore hhazard
    have hinv := (inv_start transports).foldlM_ok hbefore
    have hrun : run transports (before ++ e :: after) = .error .doubleFree ∨
        run transports (before ++ e :: after) = .error .useAfterFree := by
      unfold run at hbefore ⊢
      rw [foldlM_append, hbefore]
      show (foldlM Server.step a (e :: after)) = _ ∨
        (foldlM Server.step a (e :: after)) = _
      rw [foldlM_cons]
      rcases (hinv.step e).2 hhazard with hfault | hfault
      · rw [hfault]
        exact .inl rfl
      · rw [hfault]
        exact .inr rfl
    rcases hsafe with hfatal | ⟨b, hb, -⟩
    · rw [hfatal] at hrun
      rcases hrun with hrun | hrun <;> cases hrun
    · rw [hb] at hrun
      rcases hrun with hrun | hrun <;> cases hrun
  · intro hsafe
    rcases (inv_start transports).foldlM events hsafe with hfatal | ⟨b, hb, hinv⟩
    · exact .inl hfatal
    · exact .inr ⟨b, hb, hinv.paired⟩

/-- `"000ehost:connect:x"`: a request for a service of the host. -/
def hostRequest : List UInt8 :=
  [0x30, 0x30, 0x30, 0x65, 0x68, 0x6f, 0x73, 0x74, 0x3a, 0x63, 0x6f, 0x6e, 0x6e, 0x65, 0x63,
    0x74, 0x3a, 0x78]

/-- A client that asks for a service of the host, sends one more byte and closes its end,
when the service does not read any more. -/
def hostServiceGone : List Event :=
  let quiet : FdEvent := ⟨false, true, [], [], false, false, [], ⟨false, none, true, [], []⟩⟩
  [.acceptSmart, .fdEvent 0 { quiet with data := hostRequest },
    .fdEvent 0 { quiet with data := [1], eof := true, peerResults := [.failed] }]

/-- The socket of this client is freed twice. -/
theorem hostServiceGone_doubleFree :
    run (fun _ => ⟨false, true, 4096⟩) hostServiceGone = .error .doubleFree := rfl

-- `"0012host:track-devices"`, of a client that closes its end and does not read the list
example : run (fun _ => ⟨false, true, 4096⟩) [.acceptSmart, .fdEvent 0
    ⟨false, true, [], [0x30, 0x30, 0x31, 0x32] ++ hostAny ++ trackDevices.headD [], true, false, [],
      ⟨false, none, true, [0x30, 0x30, 0x30, 0x30], [.failed]⟩⟩]
    = .error .doubleFree := rfl

end Server

end AndroidCore.Adb
