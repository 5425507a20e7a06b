import AndroidCore.Proofs.Adb.Pairing

/-!
# `AndroidCore.Proofs.Adb.Isolation`: packets and the sockets of other transports

A local socket is connected through the transport of its remote peer, or connecting through
its own one. A packet should do nothing to a socket that is connected or connecting through
another transport than the one it came from (`Isolated`).

`handle_packet` looks a socket up by its id, in one list for all transports, and compares the
transport only for an `A_CLSE` without a socket id. So a packet reaches the sockets of other
transports when it has the right ids (`Confused`). `isolated_iff` says that these, and the
sockets with two different transports, are all the cases.
-/

namespace AndroidCore.Adb

open Lib Except Option

namespace Server

variable {a : Server} {s : Ptr} {x : Asocket}

/-- The transport of the remote peer, or the own transport of a socket without a peer. -/
def through (a : Server) (x : Asocket) : Option TransportPtr :=
  x.peer.elim x.transport fun q =>
    (a.heap q).elim none fun y => if y.kind = .remote then y.transport else none

/-- A local socket that is connected or connecting through another transport than `t`. -/
def Foreign (a : Server) (t : TransportPtr) (s : Ptr) (x : Asocket) : Prop :=
  a.OpenAt s x ∧ ∃ t', through a x = some t' ∧ t' ≠ t

/-- A packet is not for a socket of another transport, and changes none. -/
def Isolated (a : Server) (p : Packet) (t : TransportPtr) (env : PacketEnv) : Prop :=
  ∀ s x, Foreign a t s x → (∀ call, a.packetTarget p t ≠ .ok (some (s, call))) ∧
    ∀ a', a.handlePacket p t env = .ok a' → a'.heap s = a.heap s

/-- A packet that takes its transport offline, with all sockets of the transport. -/
def TakesOffline (a : Server) (p : Packet) (t : TransportPtr) : Prop :=
  (p.command = .sync ∧ p.arg0 = 0) ∨ (p.command = .cnxn ∧ (a.transports t).offline = false) ∨
    (p.command = .auth ∧ p.arg0 ≠ adbAuthToken)

/-- A packet has the ids of a socket of another transport, or takes its transport offline
while it is still the own transport of a socket that is connected through another one. -/
def Confused (a : Server) (p : Packet) (t : TransportPtr) : Prop :=
  ∃ s x, Foreign a t s x ∧
    ((∃ call, TargetOf a p t s call) ∨ (TakesOffline a p t ∧ x.transport = some t))

variable {t : TransportPtr}

/-- A socket that is connected or connecting through a transport has no local peer. -/
theorem direct_of_through (h : through a x = some t) : Direct a x := by
  intro q y hq hy hkind
  simp [through, hq, hy, hkind] at h

/-- A socket of another transport belongs to `t` only by its own transport. -/
theorem Foreign.ofTransport (h : Foreign a t s x) : OfTransport a t x ↔ x.transport = some t := by
  obtain ⟨-, t', ht', hne⟩ := h
  constructor
  · rintro (ht | ⟨q, y, hq, hy, ht⟩)
    · exact ht
    · simp only [through, hq, hy, Option.elim] at ht'
      split at ht'
      · exact absurd (mem_unique ht' ht) hne
      · cases ht'
  · exact .inl

/-- The sockets of a transport that goes offline are closed, the others are kept. -/
theorem Inv.goOffline_heap (h : Inv idle a) {b : Server} (hb : a.goOffline t = .ok b)
    (hforeign : Foreign a t s x) : b.heap s = a.heap s ↔ x.transport ≠ some t := by
  obtain ⟨a', ha', hinv, hall⟩ := h.goOffline t
  obtain rfl : a' = b := ok.inj (ha'.symm.trans hb)
  obtain ⟨t', ht', -⟩ := hforeign.2
  constructor
  · intro hsame ht
    exact hall.closed s x ⟨hsame.trans hforeign.1.1, hforeign.1.2⟩ (.inl ht)
  · intro ht
    have hkept := hall.kept s x hforeign.1 (direct_of_through ht')
      (fun hof => ht (hforeign.ofTransport.mp hof))
    rw [hkept.heap, hforeign.1.1]

/-- A packet that takes its transport offline does so first. -/
theorem Inv.handlePacket_offline (h : Inv idle a) {p : Packet} (hoffline : TakesOffline a p t)
    (env : PacketEnv) :
    ∃ b a', a.goOffline t = .ok b ∧ a.handlePacket p t env = .ok a' ∧ a'.heap = b.heap := by
  obtain ⟨target, htarget, -⟩ := h.packetTarget p t
  obtain ⟨b, hb, -⟩ := h.goOffline t
  rw [Server.handlePacket, htarget]
  rcases hoffline with ⟨hcommand, harg⟩ | ⟨hcommand, hoff⟩ | ⟨hcommand, harg⟩
  · refine ⟨b, b.sendPacket t p, hb, ?_, rfl⟩
    simp only [hcommand]
    rw [if_neg (not_not.mpr harg), hb]
    rfl
  · refine ⟨b, b.setTransport t fun _ =>
      { online := true, offline := false, maxPayload := min p.arg1 maxPayload }, hb, ?_, rfl⟩
    simp only [hcommand, handleNewConnection]
    rw [if_neg (by simp [hoff]), hb]
    rfl
  · refine ⟨b, b, hb, ?_, rfl⟩
    simp only [ok_bind_eq, hcommand]
    rw [if_neg harg, hb]

/-- Other packets leave a socket of another transport that they are not for. -/
theorem Inv.handlePacket_frame (h : Inv idle a) {p : Packet} (hoffline : ¬ TakesOffline a p t)
    (env : PacketEnv) {a' : Server} (hrun : a.handlePacket p t env = .ok a')
    (hforeign : Foreign a t s x) (hnot : ∀ call, ¬ TargetOf a p t s call) :
    a'.heap s = a.heap s := by
  obtain ⟨target, htarget, hiff⟩ := h.packetTarget p t
  obtain ⟨⟨hx, -⟩, t', ht', -⟩ := hforeign
  rw [Server.handlePacket, htarget] at hrun
  have hcall : ∀ s' call, target = some (s', call) → a.performCall p t env s' call = .ok a' →
      a'.heap s = a.heap s := by
    intro s' call hs' hperform
    have htargetOf := (hiff s' call).mp hs'
    obtain ⟨b, hb, -, hframe⟩ := h.performCall htargetOf env
    obtain rfl : b = a' := ok.inj (hb.symm.trans hperform)
    have hne : s ≠ s' := by
      rintro rfl
      exact hnot call htargetOf
    rw [hframe s x hx (direct_of_through ht') hne, hx]
  cases hcommand : p.command with
  | sync =>
    have harg : p.arg0 ≠ 0 := fun harg => hoffline (.inl ⟨hcommand, harg⟩)
    simp only [hcommand, if_pos harg] at hrun
    cases hrun
    rfl
  | cnxn =>
    have hoff : (a.transports t).offline = true := by
      by_contra hoff
      exact hoffline (.inr (.inl ⟨hcommand, by simpa using hoff⟩))
    simp only [hcommand, handleNewConnection, if_pos hoff] at hrun
    cases hrun
    rfl
  | auth =>
    have harg : p.arg0 = adbAuthToken := by
      by_contra harg
      exact hoffline (.inr (.inr ⟨hcommand, harg⟩))
    simp only [hcommand, if_pos harg] at hrun
    cases hrun
    rfl
  | «open» =>
    simp only [hcommand] at hrun
    rcases h.handleOpen p t env with hfatal | ⟨b, hb, -, hframe⟩
    · rw [hfatal] at hrun
      cases hrun
    · obtain rfl : b = a' := ok.inj (hb.symm.trans hrun)
      rw [hframe s x hx, hx]
  | okay =>
    cases target with
    | none =>
      simp only [hcommand, handleOkay] at hrun
      by_cases haccept : (a.transports t).online = true ∧ p.arg0 ≠ 0 ∧ p.arg1 ≠ 0
      · obtain ⟨found, hfound, -⟩ := h.findLocalSocket p.arg1 0
        rw [if_pos haccept, hfound] at hrun
        cases hrun
        cases found with
        | none | some q => rfl
      · rw [if_neg haccept] at hrun
        cases hrun
        rfl
    | some target =>
      simp only [hcommand] at hrun
      exact hcall target.1 target.2 rfl hrun
  | clse | wrte | unknown =>
    cases target with
    | none =>
      simp only [hcommand] at hrun
      cases hrun
      rfl
    | some target =>
      simp only [hcommand] at hrun
      exact hcall target.1 target.2 rfl hrun

/-- In every table of sockets that hangs together, a packet on `t` leaves the sockets of other
transports alone exactly when it is not confused. -/
theorem isolated_iff (h : Inv idle a) (p : Packet) (t : TransportPtr) (env : PacketEnv) :
    Isolated a p t env ↔ ¬ Confused a p t := by
  obtain ⟨target, htarget, hiff⟩ := h.packetTarget p t
  have hfound : ∀ s call, a.packetTarget p t = .ok (some (s, call)) ↔ TargetOf a p t s call := by
    intro s call
    rw [htarget, ← hiff s call]
    exact ⟨ok.inj, congrArg Except.ok⟩
  constructor
  · rintro hisolated ⟨s, x, hforeign, ⟨call, hcall⟩ | ⟨hoffline, ht⟩⟩
    · exact (hisolated s x hforeign).1 call ((hfound s call).mpr hcall)
    · obtain ⟨b, a', hb, hrun, hheap⟩ := h.handlePacket_offline hoffline env
      have hsame := (hisolated s x hforeign).2 a' hrun
      rw [hheap] at hsame
      exact (h.goOffline_heap hb hforeign).mp hsame ht
  · intro hclear s x hforeign
    have hnot : ∀ call, ¬ TargetOf a p t s call :=
      fun call hcall => hclear ⟨s, x, hforeign, .inl ⟨call, hcall⟩⟩
    refine ⟨fun call heq => hnot call ((hfound s call).mp heq), ?_⟩
    intro a' hrun
    by_cases hoffline : TakesOffline a p t
    · obtain ⟨b, a'', hb, hrun', hheap⟩ := h.handlePacket_offline hoffline env
      obtain rfl : a'' = a' := ok.inj (hrun'.symm.trans hrun)
      rw [hheap]
      exact (h.goOffline_heap hb hforeign).mpr
        fun ht => hclear ⟨s, x, hforeign, .inr ⟨hoffline, ht⟩⟩
    · exact h.handlePacket_frame hoffline env hrun hforeign hnot

/-! ### A forwarded port and two devices -/

/-- Two devices are online, and a client of a port forwarded to the device 1 waits for the
connection. -/
def forwarding : Server :=
  (run (fun _ => ⟨true, false, 4096⟩) [.acceptForward 1 [0x78]]).toOption.getD
    (start fun _ => ⟨true, false, 4096⟩)

theorem inv_forwarding : Inv idle forwarding := by
  have hrun : run (fun _ => ⟨true, false, 4096⟩) [.acceptForward 1 [0x78]] = .ok forwarding := rfl
  exact (inv_start _).foldlM_ok hrun

/-- An environment in which nothing is written. -/
def quietEnv : PacketEnv :=
  ⟨false, [], ⟨.cnxn, 0, 0, []⟩, ⟨.auth, 0, 0, []⟩⟩

/-- The device 0 answers for the device 1: its `A_OKAY` is for the waiting socket. -/
theorem forwarding_not_isolated : ¬ Isolated forwarding ⟨.okay, 7, 1, []⟩ 0 quietEnv := by
  intro hisolated
  have hforeign : Foreign forwarding 0 0 ⟨1, .local, false, none, some 1, .new, []⟩ :=
    ⟨⟨rfl, rfl, rfl⟩, 1, rfl, by decide⟩
  exact (hisolated 0 _ hforeign).1 .connect rfl

theorem forwarding_id (s : Ptr) (x : Asocket) (hx : forwarding.heap s = some x) : x.id = 1 := by
  cases s with
  | zero =>
    cases hx
    rfl
  | succ s => cases hx

/-- A packet for an id that no socket has. -/
theorem forwarding_isolated : Isolated forwarding ⟨.clse, 5, 9, []⟩ 0 quietEnv := by
  refine (isolated_iff inv_forwarding _ _ _).mpr ?_
  rintro ⟨s, x, -, ⟨call, -, -, y, hy, hid, -⟩ | ⟨hoffline, -⟩⟩
  · rw [forwarding_id s y hy.1] at hid
    cases hid
  · rcases hoffline with ⟨hcommand, -⟩ | ⟨hcommand, -⟩ | ⟨hcommand, -⟩ <;> cases hcommand

/-! ### Packets in every state of a run -/

/-- In every state of a run, `handle_packet` finds exactly the socket that a packet is for. -/
theorem run_packetTarget (transports : TransportPtr → Transport) (events : List Event)
    (hrun : run transports events = .ok a) (p : Packet) (t : TransportPtr) :
    Finds a p t (a.packetTarget p t) :=
  ((inv_start transports).foldlM_ok hrun).packetTarget p t

theorem run_packetTarget_forwarded :
    ∃ a, run (fun _ => ⟨true, false, 4096⟩) [.acceptForward 0 [0x78]] = .ok a ∧
      Finds a ⟨.okay, 7, 1, []⟩ 0 (a.packetTarget ⟨.okay, 7, 1, []⟩ 0) :=
  ⟨_, rfl, run_packetTarget (fun _ => ⟨true, false, 4096⟩) [.acceptForward 0 [0x78]] rfl _ _⟩

/-- In every state of a run, whatever packet a device sends, `handle_packet` uses no socket that
is gone, frees none twice, and keeps the sockets paired. -/
theorem run_handlePacket (transports : TransportPtr → Transport) (events : List Event)
    (hrun : run transports events = .ok a) (p : Packet) (t : TransportPtr) (env : PacketEnv) :
    Safe Paired (a.handlePacket p t env) := by
  have hinv := (inv_start transports).foldlM_ok hrun
  exact (hinv.handlePacket p t env).imp fun _ h => h.paired

theorem run_handlePacket_forwarded :
    ∃ a, run (fun _ => ⟨true, false, 4096⟩) [.acceptForward 0 [0x78]] = .ok a ∧
      Safe Paired (a.handlePacket ⟨.clse, 0, 1, []⟩ 0 quietEnv) :=
  ⟨_, rfl, run_handlePacket (fun _ => ⟨true, false, 4096⟩) [.acceptForward 0 [0x78]] rfl _ _ _⟩

end Server

end AndroidCore.Adb
