import AndroidCore.Proofs.Adb.Events

/-!
# `AndroidCore.Proofs.Adb.Packets`: what a packet does

A packet names a local socket by its id, and the socket at the other side by another id.
`Target` says which socket a packet is for and what is done to it, without the search through
the list, and `packetTarget_iff` that this is what `handle_packet` finds. `Inv.performCall`
and `Inv.closeAllSockets` are the two kinds of effects that a packet has on sockets.
-/

namespace AndroidCore.Adb

open Lib List Option

namespace Server

variable {a : Server} {s : Ptr} {x : Asocket} {U : Ptr → Prop}

/-! ### The search for a socket -/

/-- The peer of a socket has the id that a packet says. -/
def HasPeerId (a : Server) (x : Asocket) (peerId : Nat) : Prop :=
  ∃ q y, x.peer = some q ∧ a.heap q = some y ∧ y.id = peerId

/-- A search through a list that tests one socket after the other. -/
theorem search_spec {f : List Ptr → Except Fault (Option Ptr)} {P : Ptr → Prop}
    (hnil : f [] = .ok none) (list : List Ptr)
    (hcons : ∀ q ∈ list, ∀ rest, (f (q :: rest) = .ok (some q) ∧ P q) ∨
      (f (q :: rest) = f rest ∧ ¬ P q)) :
    (f list = .ok none ∧ ∀ q ∈ list, ¬ P q) ∨
      ∃ q ∈ list, f list = .ok (some q) ∧ P q := by
  induction list with
  | nil => exact .inl ⟨hnil, nofun⟩
  | cons q rest ih =>
    rcases hcons q mem_cons_self rest with ⟨hfound, hq⟩ | ⟨hrest, hq⟩
    · exact .inr ⟨q, mem_cons_self, hfound, hq⟩
    · rw [hrest]
      rcases ih fun r hr => hcons r (mem_cons_of_mem q hr) with ⟨hnone, hall⟩ | ⟨r, hr, hfound⟩
      · exact .inl ⟨hnone, forall_mem_cons.mpr ⟨hq, hall⟩⟩
      · exact .inr ⟨r, mem_cons_of_mem q hr, hfound⟩

theorem Inv.hasPeerId (h : Inv U a) (hx : a.heap s = some x) (peerId : Nat) :
    ∃ b, a.hasPeerId s peerId = .ok b ∧ (b = true ↔ HasPeerId a x peerId) := by
  rw [Server.hasPeerId, get_eq hx]
  cases hp : x.peer with
  | none =>
    refine ⟨false, by simp only [ok_bind_eq, hp, Option.elim], ?_⟩
    simp [HasPeerId, hp]
  | some q =>
    obtain ⟨-, y, hy, -⟩ := (h.good s x hx).peer q hp
    refine ⟨decide (y.id = peerId), ?_, ?_⟩
    · simp only [ok_bind_eq, hp, Option.elim, get_eq hy]
      rfl
    · simp [HasPeerId, hp, hy]

/-- `find_local_socket` finds the open socket with that id and that peer, if there is one. -/
theorem Inv.findLocalSocket (h : Inv U a) (localId peerId : Nat) :
    ∃ found, a.findLocalSocket localId peerId = .ok found ∧
      ∀ s, found = some s ↔ ∃ x, a.OpenAt s x ∧ x.id = localId ∧
        (peerId = 0 ∨ HasPeerId a x peerId) := by
  have hsearch := search_spec (f := a.findLocalId localId)
    (P := fun q => ∃ y, a.OpenAt q y ∧ y.id = localId) rfl a.localSocketList (by
      intro q hq rest
      obtain ⟨y, hy⟩ := (h.mem_local q).mp hq
      rw [findLocalId, get_eq hy.1]
      by_cases hid : y.id = localId
      · exact .inl ⟨if_pos hid, y, hy, hid⟩
      · refine .inr ⟨if_neg hid, ?_⟩
        rintro ⟨z, hz, hzid⟩
        cases hy.1.symm.trans hz.1
        exact hid hzid)
  rw [Server.findLocalSocket]
  rcases hsearch with ⟨hnone, hall⟩ | ⟨q, hq, hfound, y, hopen, hid⟩
  · rw [hnone]
    refine ⟨none, rfl, ?_⟩
    intro s
    refine iff_of_false nofun ?_
    rintro ⟨x, hx, hid, -⟩
    exact hall s ((h.mem_local s).mpr ⟨x, hx⟩) ⟨x, hx, hid⟩
  · rw [hfound]
    -- ids on the list are unique
    have hunique : ∀ s x, a.OpenAt s x → x.id = localId → s = q ∧ x = y := by
      intro s x hx hxid
      obtain rfl := h.ids s q x y hx hopen (hxid.trans hid.symm)
      exact ⟨rfl, mem_unique hx.1 hopen.1⟩
    obtain ⟨b, hb, hbiff⟩ := h.hasPeerId hopen.1 peerId
    simp only [ok_bind_eq, pure, Except.pure, Option.elim, hb]
    by_cases hfits : peerId = 0 ∨ b = true
    · refine ⟨some q, ?_, fun s => ⟨?_, ?_⟩⟩
      · rcases hfits with rfl | rfl <;> simp
      · rintro ⟨⟩
        exact ⟨y, hopen, hid, hfits.imp_right hbiff.mp⟩
      · rintro ⟨x, hx, hxid, -⟩
        rw [(hunique s x hx hxid).1]
    · refine ⟨none, by simp_all, fun s => iff_of_false nofun ?_⟩
      rintro ⟨x, hx, hxid, hpeer⟩
      obtain ⟨-, rfl⟩ := hunique s x hx hxid
      exact hfits (hpeer.imp_right hbiff.mpr)

/-! ### The target of a packet -/

/-- The socket that a packet on `t` is for, and what is done to it. -/
inductive Target (a : Server) (p : Packet) (t : TransportPtr) (s : Ptr) (x : Asocket) :
    PacketCall → Prop where
  | connect (hcommand : p.command = .okay) (harg : p.arg0 ≠ 0) (hpeer : x.peer = none) :
      Target a p t s x .connect
  | ready (hcommand : p.command = .okay) (harg : p.arg0 ≠ 0) (hpeer : HasPeerId a x p.arg0) :
      Target a p t s x .ready
  | closeOne (hcommand : p.command = .clse) (harg : p.arg0 ≠ 0)
      (hpeer : HasPeerId a x p.arg0) : Target a p t s x .close
  | closeAny (hcommand : p.command = .clse) (harg : p.arg0 = 0)
      (hpeer : ∀ q y, x.peer = some q → a.heap q = some y → y.transport = some t) :
      Target a p t s x .close
  | enqueue (hcommand : p.command = .wrte) (harg : p.arg0 ≠ 0)
      (hpeer : HasPeerId a x p.arg0) : Target a p t s x .enqueue

/-- The target of a packet that is accepted. -/
def TargetOf (a : Server) (p : Packet) (t : TransportPtr) (s : Ptr) (call : PacketCall) : Prop :=
  (a.transports t).online = true ∧ p.arg1 ≠ 0 ∧
    ∃ x, a.OpenAt s x ∧ x.id = p.arg1 ∧ Target a p t s x call

variable {p : Packet} {t : TransportPtr}

/-- The search finds the target. -/
def Finds (a : Server) (p : Packet) (t : TransportPtr)
    (result : Except Fault (Option (Ptr × PacketCall))) : Prop :=
  ∃ target, result = .ok target ∧ ∀ s call, target = some (s, call) ↔ TargetOf a p t s call

/-- A packet has one target at most. -/
theorem Inv.finds_some (h : Inv U a) {q : Ptr} {c : PacketCall} (hq : TargetOf a p t q c) :
    Finds a p t (.ok (some (q, c))) := by
  refine ⟨_, rfl, fun s call => ⟨fun heq => by cases heq; exact hq, ?_⟩⟩
  rintro ⟨-, -, x, hx, hid, htarget⟩
  obtain ⟨-, -, y, hy, hid', hc⟩ := hq
  obtain rfl := h.ids s q x y hx hy (hid.trans hid'.symm)
  obtain rfl := mem_unique hx.1 hy.1
  cases htarget <;> cases hc <;> simp_all [HasPeerId]

theorem finds_none (hnone : ∀ s call, ¬ TargetOf a p t s call) : Finds a p t (.ok none) :=
  ⟨_, rfl, fun s call => iff_of_false nofun (hnone s call)⟩

section
variable (h : Inv U a) (t)
include h

theorem Inv.target_okay (hcommand : p.command = .okay) : Finds a p t (a.packetTarget p t) := by
  obtain ⟨found, hfound, hiff⟩ := h.findLocalSocket p.arg1 0
  simp only [Server.packetTarget, hcommand]
  by_cases haccept : (a.transports t).online = true ∧ p.arg0 ≠ 0 ∧ p.arg1 ≠ 0
  · rw [if_pos haccept, hfound]
    cases found with
    | none =>
      refine finds_none ?_
      rintro s call ⟨-, -, x, hx, hid, -⟩
      cases (hiff s).mpr ⟨x, hx, hid, .inl rfl⟩
    | some q =>
      obtain ⟨y, hy, hyid, -⟩ := (hiff q).mp rfl
      simp only [ok_bind_eq, Option.elim, get_eq hy.1]
      cases hp : y.peer with
      | none =>
        exact h.finds_some
          ⟨haccept.1, haccept.2.2, y, hy, hyid, .connect hcommand haccept.2.1 hp⟩
      | some r =>
        obtain ⟨b, hb, hbiff⟩ := h.hasPeerId hy.1 p.arg0
        simp only [hb]
        cases b with
        | true =>
          exact h.finds_some ⟨haccept.1, haccept.2.2, y, hy, hyid,
            .ready hcommand haccept.2.1 (hbiff.mp rfl)⟩
        | false =>
          refine finds_none ?_
          rintro s call ⟨-, -, x, hx, hid, htarget⟩
          obtain rfl := some.inj ((hiff s).mpr ⟨x, hx, hid, .inl rfl⟩)
          obtain rfl := mem_unique hx.1 hy.1
          cases htarget <;> simp_all
  · rw [if_neg haccept]
    refine finds_none ?_
    rintro s call ⟨honline, harg, x, -, -, htarget⟩
    cases htarget <;> simp_all

theorem Inv.target_clse (hcommand : p.command = .clse) : Finds a p t (a.packetTarget p t) := by
  obtain ⟨found, hfound, hiff⟩ := h.findLocalSocket p.arg1 p.arg0
  simp only [Server.packetTarget, hcommand]
  by_cases haccept : (a.transports t).online = true ∧ p.arg1 ≠ 0
  · rw [if_pos haccept, hfound]
    -- the socket with that id and that peer is the one that was found
    have hmem : ∀ {s call}, TargetOf a p t s call → found = some s := by
      rintro s call ⟨-, -, x, hx, hid, htarget⟩
      refine (hiff s).mpr ⟨x, hx, hid, ?_⟩
      cases htarget <;> simp_all
    cases found with
    | none => exact finds_none fun s call htarget => nomatch hmem htarget
    | some q =>
      obtain ⟨y, hy, hyid, hpeerId⟩ := (hiff q).mp rfl
      simp only [ok_bind_eq, Option.elim, get_eq hy.1]
      cases hp : y.peer with
      | none =>
        refine h.finds_some
          ⟨haccept.1, haccept.2, y, hy, hyid, .closeAny hcommand ?_ (by simp [hp])⟩
        exact hpeerId.resolve_right (by simp [HasPeerId, hp])
      | some r =>
        obtain ⟨-, z, hz, -⟩ := (h.good q y hy.1).peer r hp
        simp only [ok_bind_eq, get_eq hz]
        by_cases hother : p.arg0 = 0 ∧ z.transport ≠ some t
        · rw [if_pos hother]
          refine finds_none fun s call htarget => ?_
          obtain rfl := some.inj (hmem htarget)
          obtain ⟨-, -, x, hx, -, htarget⟩ := htarget
          obtain rfl := mem_unique hx.1 hy.1
          cases htarget <;> simp_all
        · rw [if_neg hother]
          refine h.finds_some ⟨haccept.1, haccept.2, y, hy, hyid, ?_⟩
          by_cases hzero : p.arg0 = 0
          · refine .closeAny hcommand hzero fun r' z' hr' hz' => ?_
            simp_all
          · exact .closeOne hcommand hzero (hpeerId.resolve_left hzero)
  · rw [if_neg haccept]
    exact finds_none fun s call htarget => haccept ⟨htarget.1, htarget.2.1⟩

theorem Inv.target_wrte (hcommand : p.command = .wrte) : Finds a p t (a.packetTarget p t) := by
  obtain ⟨found, hfound, hiff⟩ := h.findLocalSocket p.arg1 p.arg0
  simp only [Server.packetTarget, hcommand]
  have htarget {s : Ptr} {call : PacketCall} : TargetOf a p t s call →
      p.arg0 ≠ 0 ∧ found = some s := by
    rintro ⟨-, -, x, hx, hid, htarget⟩
    rw [hiff s]
    cases htarget with
    | enqueue _ harg hpeer => exact ⟨harg, x, hx, hid, .inr hpeer⟩
    | _ => simp_all
  by_cases haccept : (a.transports t).online = true ∧ p.arg0 ≠ 0 ∧ p.arg1 ≠ 0
  · rw [if_pos haccept, hfound]
    cases found with
    | none => exact finds_none fun s call hs => nomatch (htarget hs).2
    | some q =>
      obtain ⟨x, hx, hid, hpeer⟩ := (hiff q).mp rfl
      exact h.finds_some ⟨haccept.1, haccept.2.2, x, hx, hid,
        .enqueue hcommand haccept.2.1 (hpeer.resolve_left haccept.2.1)⟩
  · rw [if_neg haccept]
    exact finds_none fun s call hs => haccept ⟨hs.1, (htarget hs).1, hs.2.1⟩

end

/-- The search of `handle_packet` finds the target. -/
theorem Inv.packetTarget (h : Inv U a) (p : Packet) (t : TransportPtr) :
    Finds a p t (a.packetTarget p t) := by
  have hother : p.command ≠ .okay → p.command ≠ .clse → p.command ≠ .wrte →
      ∀ s call, ¬ TargetOf a p t s call := by
    rintro hokay hclse hwrte s call ⟨-, -, x, -, -, htarget⟩
    cases htarget with
    | connect hcommand | ready hcommand => exact hokay hcommand
    | closeOne hcommand | closeAny hcommand => exact hclse hcommand
    | enqueue hcommand => exact hwrte hcommand
  cases hcommand : p.command with
  | okay => exact h.target_okay t hcommand
  | clse => exact h.target_clse t hcommand
  | wrte => exact h.target_wrte t hcommand
  | sync | cnxn | auth | «open» | unknown =>
    rw [Server.packetTarget, hcommand]
    exact finds_none (hother (by simp [hcommand]) (by simp [hcommand]) (by simp [hcommand]))

/-! ### Sockets that are not touched -/

/-- A socket has no local peer. -/
def Direct (a : Server) (x : Asocket) : Prop :=
  ∀ q y, x.peer = some q → a.heap q = some y → y.kind ≠ .local

/-- A socket and its peer are what they were. -/
structure Kept (s : Ptr) (x : Asocket) (a a' : Server) : Prop where
  heap : a'.heap s = some x
  peer : ∀ q, x.peer = some q → a'.heap q = a.heap q

variable {a' : Server}

theorem Kept.trans {a'' : Server} (h : Kept s x a a') (h' : Kept s x a' a'') : Kept s x a a'' :=
  ⟨h'.heap, fun q hq => (h'.peer q hq).trans (h.peer q hq)⟩

/-- Closing a local socket does not touch a socket that is not connected to it. -/
theorem Closed.kept {q : Ptr} {y : Asocket} (h : Closed q y a a') (hinv : Inv U a)
    (hy : a.heap q = some y) (hx : a.heap s = some x) (hpeer : x.peer ≠ some q) (hne : s ≠ q) :
    Kept s x a a' := by
  constructor
  · rw [h.frame s hne (fun hys => hpeer (hinv.peer_eq hx hy hys)), hx]
  · intro r hr
    refine h.frame r (fun hrq => hpeer (hrq ▸ hr)) ?_
    intro hyr
    obtain ⟨-, z, hz, hzq, -⟩ := (hinv.good q y hy).peer r hyr
    have hzs := hinv.peer_eq hz hx hr
    exact hne (mem_unique hzs hzq)

/-! ### What is done to the target -/

/-- The remote socket that a connection through `t` ends in. -/
def remotePeer (id : Nat) (t : TransportPtr) (s : Ptr) : Asocket :=
  ⟨id, .remote, false, some s, some t, .new, []⟩

/-- The server with a local socket connected to a socket behind `t`, and ready for data. -/
def connected (a : Server) (s : Ptr) (x : Asocket) (id : Nat) (t : TransportPtr) : Server :=
  a.linked s (readied { x with peer := some a.nextPtr }) (remotePeer id t s)

theorem performCall_connect (h : Inv U a) (hx : a.heap s = some x) (hkind : x.kind = .local)
    (harg : p.arg0 ≠ 0) (t : TransportPtr) (env : PacketEnv) :
    a.performCall p t env s .connect = .ok (a.connected s x p.arg0 t) := by
  have hne := h.ne_nextPtr hx
  rw [performCall, createRemoteSocket, if_neg harg]
  simp only [ok_bind_eq, alloc]
  rw [modify_eq (x := x) (by simp [hne, hx]), ok_bind_eq]
  rw [modify_eq (x := ⟨p.arg0, .remote, false, none, some t, .new, []⟩)
    (by simp [set, hne.symm]), ok_bind_eq]
  rw [ready_local (x := { x with peer := some a.nextPtr }) (by simp [set, hne]) hkind]
  simp [connected, linked, set, remotePeer, Function.update_comm hne]

theorem Inv.connected (h : Inv idle a) (hx : a.OpenAt s x) (hpeer : x.peer = none)
    (id : Nat) (t : TransportPtr) : Inv idle (a.connected s x id t) := by
  obtain ⟨hkind, hp, hid, -, hnotify, hsock⟩ := readied_shape { x with peer := some a.nextPtr }
  exact h.link hx hpeer (hkind.trans hx.2.1) hp hid hnotify (.inr hsock) (by simp [remotePeer])
    rfl (fun _ => ⟨t, rfl⟩) nofun

/-- What a packet does to its target keeps the invariant, and leaves the other sockets without
a local peer. -/
theorem Inv.performCall (h : Inv idle a) {call : PacketCall} (htarget : TargetOf a p t s call)
    (env : PacketEnv) :
    ∃ a', a.performCall p t env s call = .ok a' ∧ Inv idle a' ∧
      ∀ q y, a.heap q = some y → Direct a y → q ≠ s → a'.heap q = some y := by
  obtain ⟨-, -, x, hx, hid, htarget⟩ := htarget
  have hclose : ∃ a', a.closeSocket s = .ok a' ∧ Inv idle a' ∧
      ∀ q y, a.heap q = some y → Direct a y → q ≠ s → a'.heap q = some y := by
    obtain ⟨a', hclose, hinv, hclosed⟩ := (h.unsettle s).closeSocket hx.1 hx.2.1
    exact ⟨a', hclose, hinv, fun q y hy hdirect hq =>
      (hclosed.kept h hx.1 hy (fun hr => hdirect s x hr hx.1 hx.2.1) hq).heap⟩
  cases htarget with
  | connect hcommand harg hpeer =>
    refine ⟨_, performCall_connect h hx.1 hx.2.1 harg t env, h.connected hx hpeer _ t, ?_⟩
    intro q y hy _ hq
    simp [Server.connected, linked, hq, h.ne_nextPtr hy, hy]
  | ready hcommand harg hpeer =>
    obtain ⟨a', hready, hinv, htouches, -⟩ := h.ready hx.1
    exact ⟨a', hready, hinv, fun q y hy _ hq => (htouches.frame q hq).trans hy⟩
  | closeOne hcommand harg hpeer | closeAny hcommand harg hpeer => exact hclose
  | enqueue hcommand harg hpeer =>
    obtain ⟨q, y, hq, hy, hyid⟩ := hpeer
    rw [Server.performCall]
    by_cases hfailed : (x.sock.enqueue p.data env.results).2 = .failed
    · obtain ⟨a', henqueue, hinv, hclosed, -⟩ := h.enqueue_failed hx hfailed
      refine ⟨a', ?_, hinv, fun r z hz hdirect hr =>
        (hclosed.kept h hx.1 hz (fun hr => hdirect s x hr hx.1 hx.2.1) hr).heap⟩
      rw [henqueue]
      rfl
    · -- smart sockets have the id 0
      have hsmart : y.kind ≠ .smart :=
        fun hk => harg (hyid.symm.trans ((h.good q y hy).smartId hk))
      obtain ⟨a', r, henqueue, hr, hinv, htouches, x', hx', -⟩ :=
        h.enqueue_ok hx hq hy hsmart hfailed
      have hframe : ∀ q y, a.heap q = some y → Direct a y → q ≠ s → a'.heap q = some y :=
        fun q y hy _ hq => (htouches.frame q hq).trans hy
      rw [henqueue]
      rcases hr with rfl | rfl
      · refine ⟨a'.sendPacket t ⟨.okay, x'.id, p.arg0, []⟩, ?_, hinv.sendPacket _ _, hframe⟩
        simp only [ok_bind_eq, get_eq hx']
        rfl
      · exact ⟨a', rfl, hinv, hframe⟩

/-- `A_OPEN` makes new sockets only. -/
theorem Inv.handleOpen (h : Inv idle a) (p : Packet) (t : TransportPtr) (env : PacketEnv) :
    Safe (fun a' => Inv idle a' ∧ ∀ q y, a.heap q = some y → a'.heap q = some y)
      (a.handleOpen p t env) := by
  rw [Server.handleOpen]
  by_cases haccept : (a.transports t).online = true ∧ p.arg0 ≠ 0 ∧ p.arg1 = 0
  · rw [if_pos haccept]
    by_cases hservice : (!env.service) = true
    · rw [if_pos hservice]
      exact .ok ⟨h.sendPacket _ _, fun _ _ hy => hy⟩
    rw [if_neg hservice]
    rcases h.createLocalSocket with hfatal | ⟨hcreate, hid⟩
    · rw [hfatal]
      exact .inl rfl
    · rw [hcreate]
      have hnew := h.newLocal hid
      have hs := newLocal_heap_self a
      have hne := hnew.ne_nextPtr hs
      have hinv := hnew.connected ⟨hs, rfl, rfl⟩ rfl p.arg0 t
      simp only [ok_bind_eq, createRemoteSocket, if_neg haccept.2.1, alloc]
      rw [modify_eq (x := a.freshLocal) (by simp [hne, hs]), ok_bind_eq]
      rw [modify_eq (x := ⟨p.arg0, .remote, false, none, some t, .new, []⟩)
        (by simp [Server.set, hne.symm]), ok_bind_eq]
      rw [get_eq (x := { a.freshLocal with peer := some a.newLocal.nextPtr })
        (by simp [Server.set, hne]), ok_bind_eq]
      rw [ready_local (x := { a.freshLocal with peer := some a.newLocal.nextPtr })
        (by simp [Server.set, Server.sendPacket, hne]) rfl]
      refine .ok ⟨hinv.congr ?_ rfl rfl rfl rfl, ?_⟩
      · simp [Server.connected, linked, Server.set, Server.sendPacket, remotePeer,
          Function.update_comm hne]
      · intro q y hy
        have hq := h.ne_nextPtr hy
        have hq' := hnew.ne_nextPtr ((newLocal_heap_of_ne a hq).trans hy)
        simp [Server.set, Server.sendPacket, hq, hq', newLocal_heap_of_ne a hq, hy]
  · rw [if_neg haccept]
    exact .ok ⟨h, fun _ _ hy => hy⟩

/-! ### `close_all_sockets` -/

/-- A socket or its peer belongs to a transport. -/
def OfTransport (a : Server) (t : TransportPtr) (x : Asocket) : Prop :=
  x.transport = some t ∨ ∃ q y, x.peer = some q ∧ a.heap q = some y ∧ y.transport = some t

variable (t)

theorem Inv.socketOf (h : Inv U a) (hx : a.heap s = some x) :
    ∃ b, a.socketOf t s = .ok b ∧ (b = true ↔ OfTransport a t x) := by
  rw [Server.socketOf, get_eq hx]
  simp only [ok_bind_eq]
  by_cases ht : x.transport = some t
  · rw [if_pos ht]
    exact ⟨true, rfl, iff_of_true rfl (.inl ht)⟩
  · rw [if_neg ht]
    cases hp : x.peer with
    | none => exact ⟨false, rfl, by simp [OfTransport, ht, hp]⟩
    | some q =>
      obtain ⟨-, y, hy, -⟩ := (h.good s x hx).peer q hp
      simp only [Option.elim, get_eq hy]
      exact ⟨decide (y.transport = some t), rfl, by simp [OfTransport, ht, hp, hy]⟩

/-- The loop finds a socket of the transport, if there is one. -/
theorem Inv.findSocketOf (h : Inv U a) :
    (a.findSocketOf t a.localSocketList = .ok none ∧
      ∀ s x, a.OpenAt s x → ¬ OfTransport a t x) ∨
    ∃ q ∈ a.localSocketList, a.findSocketOf t a.localSocketList = .ok (some q) ∧
      ∃ y, a.OpenAt q y ∧ OfTransport a t y := by
  refine (search_spec rfl a.localSocketList ?_).imp_left
    fun hnone => ⟨hnone.1, fun s x hx hof =>
      hnone.2 s ((h.mem_local s).mpr ⟨x, hx⟩) ⟨x, hx, hof⟩⟩
  intro q hq rest
  obtain ⟨y, hy⟩ := (h.mem_local q).mp hq
  obtain ⟨b, hb, hbiff⟩ := h.socketOf t hy.1
  rw [Server.findSocketOf, hb]
  cases b with
  | true => exact .inl ⟨rfl, y, hy, hbiff.mp rfl⟩
  | false =>
    refine .inr ⟨rfl, ?_⟩
    rintro ⟨z, hz, hof⟩
    cases hy.1.symm.trans hz.1
    cases hbiff.mpr hof

theorem Kept.ofTransport (h : Kept s x a a') : OfTransport a' t x ↔ OfTransport a t x := by
  refine or_congr Iff.rfl ?_
  constructor
  · rintro ⟨q, y, hq, hy, ht⟩
    exact ⟨q, y, hq, (h.peer q hq).symm.trans hy, ht⟩
  · rintro ⟨q, y, hq, hy, ht⟩
    exact ⟨q, y, hq, (h.peer q hq).trans hy, ht⟩

/-- A socket is gone, or waits until its queue is written. -/
def Gone (a : Server) (s : Ptr) : Prop := a.heap s = none ∨ ∃ z, a.ClosingAt s z

/-- Closing a local socket does not bring another one back. -/
theorem Closed.gone_frame {q : Ptr} {y : Asocket} (h : Closed q y a a') (hinv : Inv U a)
    (hy : a.OpenAt q y) (hs : a.Gone s) : a'.Gone s := by
  -- a socket that is gone is neither the closed one nor its peer
  have hne : s ≠ q := by
    rintro rfl
    rcases hs with hnone | ⟨z, hz, -, hclosing⟩
    · cases hnone.symm.trans hy.1
    · obtain rfl := mem_unique hz hy.1
      cases hclosing.symm.trans hy.2.2
  have hpeer : y.peer ≠ some s := by
    intro hp
    obtain ⟨-, w, hw, hwq, -⟩ := (hinv.good q y hy.1).peer s hp
    rcases hs with hnone | ⟨z, hz, hkind, hclosing⟩
    · cases hnone.symm.trans hw
    · obtain rfl := mem_unique hz hw
      cases ((hinv.localOk hz hkind).closing hclosing).symm.trans hwq
  unfold Gone ClosingAt
  rw [h.frame s hne hpeer]
  exact hs

/-- What `close_all_sockets` leaves. -/
structure AllClosed (t : TransportPtr) (a a' : Server) : Prop where
  kept : ∀ s x, a.OpenAt s x → Direct a x → ¬ OfTransport a t x → Kept s x a a'
  closed : ∀ s x, a'.OpenAt s x → ¬ OfTransport a' t x

/-- Every round closes one of the sockets, and takes it off the list. -/
theorem Inv.closeAllLoop (fuel : Nat) (h : Inv idle a) (hfuel : a.localSocketList.length < fuel) :
    ∃ a', closeAllLoop t fuel a = .ok a' ∧ Inv idle a' ∧
      (∀ s x, a.heap s = some x → ¬ OfTransport a t x → Kept s x a a') ∧
      (∀ s x, a'.OpenAt s x → ¬ OfTransport a' t x) ∧ (∀ s, a.Gone s → a'.Gone s) ∧
      ∀ s x, a.OpenAt s x → OfTransport a t x → a'.Gone s := by
  induction fuel generalizing a with
  | zero => exact absurd hfuel (Nat.not_lt_zero _)
  | succ fuel ih =>
    rw [Server.closeAllLoop]
    rcases h.findSocketOf t with ⟨hnone, hall⟩ | ⟨q, hq, hfound, y, hy, hof⟩
    · rw [hnone]
      exact ⟨a, rfl, h, fun s x hx _ => ⟨hx, fun _ _ => rfl⟩, hall, fun _ => id,
        fun s x hx hof => absurd hof (hall s x hx)⟩
    · obtain ⟨b, hclose, hinv, hclosed⟩ := (h.unsettle q).closeSocket hy.1 hy.2.1
      have hlength : b.localSocketList.length < fuel := by
        have hne : b.localSocketList ≠ a.localSocketList := by
          intro heq
          exact ((hclosed.list q).mp (heq ▸ hq)).2.1 rfl
        have hle := hclosed.sublist.length_le
        have : b.localSocketList.length ≠ a.localSocketList.length :=
          fun heq => hne (hclosed.sublist.eq_of_length heq)
        omega
      obtain ⟨a', hloop, hinv', hkeeps, hall, hgone, hof'⟩ := ih hinv hlength
      rw [hfound]
      simp only [ok_bind_eq, Option.elim, hclose]
      refine ⟨a', hloop, hinv', ?_, hall, fun s hs => hgone s (hclosed.gone_frame h hy hs), ?_⟩
      case refine_2 =>
        intro s x hx hsof
        by_cases hsq : s = q
        · subst hsq
          exact hgone s hclosed.self
        by_cases hp : x.peer = some q
        · have hs := hclosed.peer s x (h.peer_eq hy.1 hx.1 hp) hx.1 hx.2.1
          refine hgone s ?_
          split at hs
          · exact .inl hs
          · exact .inr ⟨_, hs, hx.2.1, rfl⟩
        · have hkept := hclosed.kept h hy.1 hx.1 hp hsq
          exact hof' s x ⟨hkept.heap, hx.2⟩ ((hkept.ofTransport t).mpr hsof)
      intro s x hx hnot
      have hne : s ≠ q := by
        rintro rfl
        obtain rfl := mem_unique hx hy.1
        exact hnot hof
      -- the peer of a socket of the transport is of the transport as well
      have hpeer : x.peer ≠ some q := by
        intro hp
        rcases hof with ht | ⟨r, z, hr, hz, ht⟩
        · exact hnot (.inr ⟨q, y, hp, hy.1, ht⟩)
        · obtain rfl := mem_unique (h.peer_eq hy.1 hx hp) hr
          obtain rfl := mem_unique hx hz
          exact hnot (.inl ht)
      have hkept := hclosed.kept h hy.1 hx hpeer hne
      exact hkept.trans (hkeeps s x hkept.heap fun hof' => hnot ((hkept.ofTransport t).mp hof'))

theorem Inv.closeAllSockets (h : Inv idle a) :
    ∃ a', a.closeAllSockets t = .ok a' ∧ Inv idle a' ∧ AllClosed t a a' := by
  obtain ⟨a', hloop, hinv, hkeeps, hclosed, -⟩ := h.closeAllLoop t _ (Nat.lt_succ_self _)
  exact ⟨a', hloop, hinv, fun s x hx _ => hkeeps s x hx.1, hclosed⟩

theorem Inv.handleOffline (h : Inv idle a) :
    ∃ a', a.handleOffline t = .ok a' ∧ Inv idle a' ∧
      AllClosed t (a.setTransport t fun x => { x with online := false }) a' :=
  (h.setTransport t _).closeAllSockets t

theorem Inv.goOffline (h : Inv idle a) :
    ∃ a', a.goOffline t = .ok a' ∧ Inv idle a' ∧
      AllClosed t ((a.setTransport t fun x => { x with offline := true }).setTransport t
        fun x => { x with online := false }) a' :=
  (h.setTransport t _).handleOffline t

end Server

end AndroidCore.Adb
