import AndroidCore.Proofs.Adb.Connect
import AndroidCore.Proofs.Adb.LocalSocket

/-!
# `AndroidCore.Proofs.Adb.Events`: events of a descriptor

The handler of a descriptor event writes what is pending, and then hands what it reads to the
peer. Each step keeps the invariant, and the handler uses the socket only while it is there,
with two exceptions (`ReadHazard`).

* A local peer whose descriptor cannot be written closes itself inside `enqueue`, and its own
  peer with it. This is the socket that the handler works on, and when it has nothing pending it
  is freed. `enqueue` returns 1 as for a packet that waits.
* A smart peer that reads a request to track devices sends the first list of devices to the
  client at once. The client is the socket that the handler works on. When the list cannot be
  written, it is closed and freed, and `enqueue` returns 0 as for a request that was answered.

In both cases the handler goes on with a socket that is gone.
-/

namespace AndroidCore.Adb

open Function Lib LocalSocket Option

namespace Server

variable {a : Server} {s p : Ptr} {x y : Asocket}

/-- A local socket is allocated. -/
def Live (a : Server) (s : Ptr) : Prop := ∃ x, a.heap s = some x ∧ x.kind = .local

/-! ### `enqueue` of a local socket -/

variable {results : List WriteResult} {data : List UInt8} {sock : LocalSocket}

theorem localSocketEnqueue_eq (hy : a.heap p = some y) {result : Enqueued}
    (heq : y.sock.enqueue data results = (sock, result)) :
    a.localSocketEnqueue p data results = match result with
      | .ready => .ok (a.set p { y with sock }, 0)
      | .backlog => .ok (a.set p { y with sock }, 1)
      | .failed => ((a.set p { y with sock }).closeSocket p).map (·, 1) := by
  rw [localSocketEnqueue, get_eq hy]
  simp only [ok_bind_eq, heq]
  cases result <;> rfl

/-- A packet for a local socket that is not closing: it is written or waits in the queue. -/
theorem Inv.enqueue_ok (h : Inv idle a) (hy : a.OpenAt p y) {z : Asocket} (hpeer : y.peer = some s)
    (hz : a.heap s = some z) (hsmart : z.kind ≠ .smart)
    (hok : (y.sock.enqueue data results).2 ≠ .failed) :
    ∃ a' r, a.localSocketEnqueue p data results = .ok (a', r) ∧ (r = 0 ∨ r = 1) ∧
      Inv idle a' ∧ Touches p a a' ∧ a'.Live p := by
  have hlocal := h.localOk hy.1 hy.2.1
  have hsettled := hlocal.settled not_false
  have hinv : ∀ sock : LocalSocket, sock.closing = y.sock.closing →
      sock.hasWriteError = false → (sock.fdeWrite = true ↔ sock.pktQueue ≠ []) →
      Inv idle (a.set p { y with sock }) := by
    intro sock hclosing hnoError hwrite
    refine h.setSock hy.1 hy.2.1 hclosing (fun _ => ⟨hnoError, hwrite, ?_, ?_⟩) False.elim
    · intro hc
      rw [show sock.closing = true from hc, hy.2.2] at hclosing
      cases hclosing
    · exact fun _ _ => ⟨s, z, hpeer, hz, hsmart⟩
  have htouches : ∀ w, Touches p a (a.set p w) :=
    fun w => ⟨fun q => set_heap_of_ne a w, rfl, rfl, rfl⟩
  rcases y.sock.enqueue_cases data results with
    ⟨written, heq, -, -⟩ | ⟨written, rest, heq, -⟩ | ⟨written, rest, heq, -⟩
  · exact ⟨_, 0, localSocketEnqueue_eq hy.1 heq, .inl rfl,
      hinv _ rfl hsettled.noError hsettled.fdeWrite, htouches _, _, set_heap_self _ _ _, hy.2.1⟩
  · exact ⟨_, 1, localSocketEnqueue_eq hy.1 heq, .inr rfl,
      hinv _ rfl hsettled.noError (by simp [push]), htouches _, _,
      set_heap_self _ _ _, hy.2.1⟩
  · rw [heq] at hok
    exact absurd rfl hok

/-- When a write fails, the local socket is closed. -/
theorem Inv.enqueue_failed (h : Inv idle a) (hy : a.OpenAt p y)
    (hfailed : (y.sock.enqueue data results).2 = .failed) :
    ∃ a', a.localSocketEnqueue p data results = .ok (a', 1) ∧ Inv idle a' ∧
      Closed p y a a' ∧ a'.heap p = none := by
  rcases y.sock.enqueue_cases data results with
    ⟨written, heq, -, -⟩ | ⟨written, rest, heq, -⟩ | ⟨written, rest, heq, -⟩
  · rw [heq] at hfailed
    cases hfailed
  · rw [heq] at hfailed
    cases hfailed
  · have hset : Inv (only p) (a.set p { y with sock := { y.sock with
        written := y.sock.written ++ written, hasWriteError := true } }) := by
      refine (h.unsettle p).setSock hy.1 hy.2.1 rfl (fun hs => absurd rfl hs) fun _ => ?_
      simp [closesNow]
    obtain ⟨a', hclose, hinv, hclosed⟩ := hset.closeSocket (set_heap_self a p _) hy.2.1
    have hgone := hclosed.gone (by simp [closesNow])
    refine ⟨a', (localSocketEnqueue_eq hy.1 heq).trans (by rw [hclose]; rfl), hinv, ?_, hgone⟩
    refine ⟨?_, hclosed.list, hclosed.sublist, hclosed.transports, fun _ => hgone, .inl hgone, ?_⟩
    · intro q hq hqp
      rw [hclosed.frame q hq hqp, set_heap_of_ne a _ hq]
    · intro q z hq hz hk
      have hne : q ≠ p := ((h.good p y hy.1).peer q hq).1
      exact hclosed.peer q z hq ((set_heap_of_ne a _ hne).trans hz) hk

/-! ### The writable half -/

/-- The writable half keeps the invariant, and the socket is still there when the handler
goes on. -/
theorem Inv.eventWrite (h : Inv idle a) (hx : a.heap s = some x) (hkind : x.kind = .local)
    (hwrite : x.sock.fdeWrite = true) (results : List WriteResult) :
    ∃ a' goOn, a.eventWrite s results = .ok (a', goOn) ∧ Inv idle a' ∧
      (goOn = true → a'.Live s) := by
  have hlocal := h.localOk hx hkind
  have hsettled := hlocal.settled not_false
  have hqueue := hsettled.fdeWrite.mp hwrite
  obtain ⟨written, queue, -, -, hcases⟩ := x.sock.drain_cases results
  -- a socket whose write has failed, or that has written everything behind its close
  have hclose : ∀ sock : LocalSocket, sock.closing = x.sock.closing →
      (sock.closesNow = true) → ∃ a', (a.set s { x with sock }).closeSocket s = .ok a' ∧
        Inv idle a' := by
    intro sock hclosing hnow
    have hset : Inv (only s) (a.set s { x with sock }) :=
      (h.unsettle s).setSock hx hkind hclosing (fun hs => absurd rfl hs) fun _ => .inl hnow
    obtain ⟨a', hclose, hinv, -⟩ := hset.closeSocket (set_heap_self a s _) hkind
    exact ⟨a', hclose, hinv⟩
  rw [Server.eventWrite, get_eq hx]
  rcases hcases with ⟨-, heq⟩ | ⟨hne, heq⟩ | ⟨-, heq⟩
  · by_cases hclosing : x.sock.closing = true
    · obtain ⟨a', hclose', hinv⟩ := hclose { x.sock with
        written := x.sock.written ++ written, pktQueue := []
        fdeWrite := x.sock.closing && x.sock.fdeWrite } rfl (by simp [closesNow])
      refine ⟨a', false, ?_, hinv, by simp⟩
      simp only [ok_bind_eq, heq, if_pos hclosing, hclose']
      rfl
    · -- nothing is left to write: the peer may send again
      have hopen : x.sock.closing = false := by simpa using hclosing
      obtain ⟨p, y, hp, hy, hsmart⟩ := hsettled.connected hqueue hopen
      have hne := ((h.good s x hx).peer p hp).1
      have hset : Inv idle (a.set s { x with sock := { x.sock with
          written := x.sock.written ++ written, pktQueue := []
          fdeWrite := x.sock.closing && x.sock.fdeWrite } }) := by
        refine h.setSock hx hkind rfl
          (fun _ => .of_queue_eq_nil hsettled.noError ?_ hopen rfl) False.elim
        simp [hopen]
      obtain ⟨a', hready, hinv, htouches, -⟩ :=
        hset.ready ((set_heap_of_ne a _ hne).trans hy)
      refine ⟨a', true, ?_, hinv, fun _ => ?_⟩
      · simp only [ok_bind_eq, heq, if_neg hclosing, hp, follow, Option.elim]
        rw [← hp, hready]
        rfl
      · have hs := (htouches.frame s hne.symm).trans (set_heap_self a s _)
        exact ⟨_, hs, hkind⟩
  · refine ⟨a.set s { x with sock := { x.sock with
      written := x.sock.written ++ written, pktQueue := queue } }, false, ?_, ?_, by simp⟩
    · simp only [ok_bind_eq, heq]
      rfl
    · refine h.setSock hx hkind rfl (fun _ =>
        ⟨hsettled.noError, ?_, fun _ => hne, fun _ => hsettled.connected hqueue⟩) False.elim
      exact iff_of_true hwrite hne
  · obtain ⟨a', hclose', hinv⟩ := hclose { x.sock with
      written := x.sock.written ++ written, pktQueue := queue, hasWriteError := true } rfl
      (by simp [closesNow])
    refine ⟨a', false, ?_, hinv, by simp⟩
    simp only [ok_bind_eq, heq, hclose']
    rfl

/-! ### Smart sockets -/

theorem Inv.getMaxPayload {U : Ptr → Prop} (h : Inv U a) (hx : a.heap s = some x) :
    ∃ n, a.getMaxPayload s = .ok n := by
  rw [Server.getMaxPayload, get_eq hx]
  cases hp : x.peer with
  | none =>
    simp only [ok_bind_eq, hp]
    exact ⟨_, rfl⟩
  | some p =>
    obtain ⟨-, y, hy, -⟩ := (h.good s x hx).peer p hp
    simp only [ok_bind_eq, hp, get_eq hy]
    exact ⟨_, rfl⟩

/-- `connect_to_remote` aborts when the name of the service is too long for a packet. -/
theorem connectToRemote_cases (hx : a.heap s = some x) (hpeer : x.peer = none)
    {t : TransportPtr} (ht : x.transport = some t) (destination : List UInt8) :
    a.connectToRemote s destination = .error .fatal ∨
      ∃ pk, a.connectToRemote s destination = .ok (a.sendPacket t pk) := by
  have hpayload : ∃ n, a.getMaxPayload s = .ok n := by
    rw [Server.getMaxPayload, get_eq hx]
    simp only [ok_bind_eq, hpeer]
    exact ⟨_, rfl⟩
  obtain ⟨n, hn⟩ := hpayload
  rw [connectToRemote, get_eq hx]
  simp only [ok_bind_eq, hn, follow_eq ht]
  by_cases hlong : 0 < n ∧ n < destination.length + 2
  · rw [if_pos hlong]
    exact .inl rfl
  · rw [if_neg hlong]
    exact .inr ⟨_, rfl⟩

/-- `device_tracker_send` does not fail. When the list cannot be written, the client is gone. -/
theorem Inv.deviceTrackerSend {q : Ptr} (h : Inv idle a) (hx : a.heap s = some x)
    (hkind : x.kind = .tracker) (hq : x.peer = some q) (hy : a.heap q = some y)
    (devices : List UInt8) (results : List WriteResult) :
    ∃ a', a.deviceTrackerSend s devices results = .ok a' ∧ Inv idle a' ∧
      ((y.sock.enqueue devices results).2 = .failed ∧ a'.heap q = none ∨
        (y.sock.enqueue devices results).2 ≠ .failed ∧ a'.Live q) := by
  obtain ⟨-, w, hw, hys, hkinds⟩ := (h.good s x hx).peer q hq
  obtain rfl := mem_unique hy hw
  have hk : y.kind = .local := hkinds.resolve_left (by simp [hkind])
  have hopen : a.OpenAt q y := ⟨hy, hk, ((h.localOk hy hk).open_of_peer hys).1⟩
  rw [Server.deviceTrackerSend, get_eq hx]
  show ∃ a', (follow x.peer >>= _) = _ ∧ _
  rw [follow_eq hq]
  by_cases hfailed : (y.sock.enqueue devices results).2 = .failed
  · obtain ⟨a', henqueue, hinv, -, hgone⟩ := h.enqueue_failed hopen hfailed
    exact ⟨a', by simp only [ok_bind_eq, henqueue]; rfl, hinv, .inl ⟨hfailed, hgone⟩⟩
  · obtain ⟨a', r, henqueue, -, hinv, -, hlive⟩ :=
      h.enqueue_ok hopen hys hx (by simp [hkind]) hfailed
    exact ⟨a', by simp only [ok_bind_eq, henqueue]; rfl, hinv, .inr ⟨hfailed, hlive⟩⟩

/-- What `enqueue` of a peer of `q` returns with: the result is negative, or `q` is still
there. -/
def Handed (q : Ptr) (r : Server × Int) : Prop :=
  Inv idle r.1 ∧ (r.2 < 0 ∨ (0 ≤ r.2 ∧ r.1.Live q))

/-- What `enqueue` of the smart socket `s` with the peer `q` returns with: when the result is
negative both are gone, unless `bad`. -/
def Answered (s q : Ptr) (bad : Prop) (r : Server × Int) : Prop :=
  Inv idle r.1 ∧ (r.2 < 0 ∧ (r.1.heap s = none ∧ r.1.heap q = none ↔ ¬ bad) ∨
    0 ≤ r.2 ∧ r.1.Live q)

/-- The bytes are a request for a transport by its number, and no service follows. -/
def BadTransportId (p : List UInt8) : Prop :=
  4 ≤ p.length ∧ 1 ≤ unhex (p.take 4) ∧ unhex (p.take 4) ≤ maxPayload ∧
    unhex (p.take 4) + 4 ≤ p.length ∧
    parseRequest (((p.drop 4).take (unhex (p.take 4))).takeWhile (· ≠ 0)) = .badTransportId

/-- The packet `p` completes such a request, of at most `n` bytes unless it comes at once. -/
def Unanswered (x : Asocket) (n : Nat) (p : List UInt8) : Prop :=
  BadTransportId (x.sock.pktQueue.headD [] ++ p) ∧
    (x.sock.pktQueue ≠ [] → (x.sock.pktQueue.headD [] ++ p).length ≤ n)

/-- The peer `q` of the smart socket `s` is bound to a new tracker, and `s` is freed. -/
def tracked (a : Server) (s q : Ptr) (y : Asocket) : Server :=
  { a with
    heap := update (update (update a.heap a.nextPtr
      (some ⟨0, .tracker, false, some q, none, .new, []⟩)) q
      (some { y with status := y.status ++ [.okay], notify := false, peer := some a.nextPtr })) s
      none
    nextPtr := a.nextPtr + 1 }

/-- The bytes are a request to track devices that no other part of the server handles, and the
first list of devices cannot be written to the client `y`. -/
def TracksInVain (p : List UInt8) (answer : HostAnswer) (y : Asocket) : Prop :=
  4 ≤ p.length ∧ 1 ≤ unhex (p.take 4) ∧ unhex (p.take 4) ≤ maxPayload ∧
    unhex (p.take 4) + 4 ≤ p.length ∧
    (∃ service ∈ trackDevices,
      parseRequest (((p.drop 4).take (unhex (p.take 4))).takeWhile (· ≠ 0)) = .host service) ∧
    answer.handled = false ∧ (y.sock.enqueue answer.devices answer.results).2 = .failed

/-- The packet `p` completes such a request, of at most `n` bytes unless it comes at once. -/
def LosesClient (x : Asocket) (n : Nat) (p : List UInt8) (answer : HostAnswer) (y : Asocket) :
    Prop :=
  TracksInVain (x.sock.pktQueue.headD [] ++ p) answer y ∧
    (x.sock.pktQueue ≠ [] → (x.sock.pktQueue.headD [] ++ p).length ≤ n)

section

variable {q : Ptr} (h : Inv idle a) (hx : a.heap s = some x) (hkind : x.kind = .smart)
include h hx hkind

/-- Other fields of a smart socket are no part of the invariant. -/
theorem Inv.set_smart {z : Asocket} (hkind' : z.kind = x.kind) (hpeer : z.peer = x.peer)
    (hid : z.id = x.id) (hclosing : z.sock.closing = x.sock.closing) : Inv idle (a.set s z) := by
  rw [hkind] at hkind'
  refine h.set hx (hkind'.trans hkind.symm) hpeer hid hclosing ?_ ?_ (fun _ _ => Iff.rfl) ?_
    (fun _ => False.elim)
  all_goals
    intro hk
    rw [hkind'] at hk
    cases hk

theorem handOver_eq {β : Type} (hqs : q ≠ s) (hy : a.heap q = some y)
    (f : Server → Except Fault β) :
    (do
      let a' ← a.newLocal.modify q fun y => { y with
        status := y.status ++ [Status.okay], notify := false, peer := some a.nextPtr }
      let a' ← a'.modify a.nextPtr fun y => { y with peer := some q }
      let a' ← a'.modify s fun x => { x with peer := none }
      let a' ← a'.closeSocket s
      f a') = f (a.handedOver s q y) := by
  have hs2 := h.ne_nextPtr hx
  have hq2 := h.ne_nextPtr hy
  rw [modify_eq ((newLocal_heap_of_ne a hq2).trans hy)]
  show (modify _ a.nextPtr _ >>= _) = _
  rw [modify_eq ((set_heap_of_ne _ _ hq2.symm).trans (newLocal_heap_self a))]
  show (modify _ s _ >>= _) = _
  rw [modify_eq (by
    rw [set_heap_of_ne _ _ hs2, set_heap_of_ne _ _ hqs.symm, newLocal_heap_of_ne a hs2, hx])]
  show (Server.closeSocket _ s >>= _) = _
  rw [closeSocket_unpeered (set_heap_self _ s _) (by simp [hkind]) rfl]
  show f _ = _
  simp [handedOver, newLocal, set, update_comm hq2]

variable (hq : x.peer = some q)
include hq

/-- The peer of a smart socket is left without a peer, and the smart socket is freed. -/
theorem Inv.release (hy : a.heap q = some y) {z : Asocket} (hkind' : z.kind = y.kind)
    (hpeer : z.peer = none) (hid : z.id = y.id) (hsock : z.sock = y.sock) :
    Inv idle ((a.cut q s y none).set q z) := by
  obtain ⟨hne, w, hw, hys, hnoError, hwrite, hqueue⟩ := h.smart_peer hx hkind hq
  obtain rfl := mem_unique hy hw.1
  have hcut := (h.unsettle q).cut hy hw.2.1 hys hx (.inl ⟨by simp [hkind], rfl⟩) (V := only q)
    (fun _ _ _ => Iff.rfl) rfl (by simp [hkind])
  refine hcut.set (cut_heap_self a q s y _) hkind' hpeer hid (by rw [hsock]) ?_ (fun _ _ => hpeer)
    (fun r hr => iff_of_false not_false hr)
    (fun _ _ => .of_queue_eq_nil (hsock ▸ hnoError) (hsock ▸ hwrite) (hsock ▸ hw.2.2)
      (hsock ▸ hqueue)) (fun _ => False.elim)
  intro hk
  cases (hkind'.trans hw.2.1).symm.trans hk

theorem Inv.tracked (hy : a.heap q = some y) : Inv idle (a.tracked s q y) := by
  obtain ⟨hne, w, hw, -⟩ := h.smart_peer hx hkind hq
  obtain rfl := mem_unique hy hw.1
  have hfree := h.release hx hkind hq hy (z := { y with peer := none }) rfl rfl rfl rfl
  have hlink := hfree.link ⟨set_heap_self _ q _, hw.2.1, hw.2.2⟩ rfl
    (v := { y with status := y.status ++ [.okay], notify := false, peer := some a.nextPtr })
    (z := ⟨0, .tracker, false, some q, none, .new, []⟩) hw.2.1 rfl rfl rfl (.inl rfl)
    nofun rfl nofun nofun
  refine hlink.congr ?_ rfl rfl rfl rfl
  simp [linked, Server.tracked, Server.set, Server.cut, update_comm hne,
    update_comm (h.ne_nextPtr hx), update_comm (h.ne_nextPtr hy)]

/-- A request to track devices does not fail. When the first list cannot be written, the client
is gone. -/
theorem Inv.smartTrack (hy : a.heap q = some y) (answer : HostAnswer) :
    ∃ a', a.smartTrack s q answer = .ok (a', 0) ∧ Inv idle a' ∧
      ((y.sock.enqueue answer.devices answer.results).2 = .failed ∧ a'.heap q = none ∨
        (y.sock.enqueue answer.devices answer.results).2 ≠ .failed ∧ a'.Live q) := by
  obtain ⟨hne, -⟩ := h.smart_peer hx hkind hq
  have hs2 := h.ne_nextPtr hx
  have hq2 := h.ne_nextPtr hy
  obtain ⟨a', hsend, hinv, hcases⟩ := (h.tracked hx hkind hq hy).deviceTrackerSend
    (s := a.nextPtr) (x := ⟨0, .tracker, false, some q, none, .new, []⟩)
    (y := { y with status := y.status ++ [.okay], notify := false, peer := some a.nextPtr })
    (by simp [Server.tracked, hs2.symm, hq2.symm]) rfl rfl (by simp [Server.tracked, hne])
    answer.devices answer.results
  refine ⟨a', ?_, hinv, hcases⟩
  rw [Server.smartTrack]
  simp only [createDeviceTracker, alloc]
  rw [modify_eq (x := y) (by simp [hq2, hy]), ok_bind_eq]
  rw [modify_eq (x := ⟨0, .tracker, false, none, none, .new, []⟩)
    (by simp [Server.set, hq2.symm]), ok_bind_eq]
  rw [modify_eq (x := x) (by simp [Server.set, hs2, hne.symm, hx]), ok_bind_eq]
  rw [closeSocket_unpeered (set_heap_self _ s _) (by simp [hkind]) rfl]
  rw [Server.tracked, update_comm hq2.symm] at hsend
  simp only [Server.set, update_idem, update_comm hq2.symm, ok_bind_eq,
    hsend]
  rfl

section

variable {bad : Prop} (hbad : ¬ bad)
include hbad

theorem Inv.smartFail : Safe (Answered s q bad) (a.smartFail s) := by
  obtain ⟨-, y, hy, -, -, -, hqueue⟩ := h.smart_peer hx hkind hq
  obtain ⟨a', hclose, hinv, hs, hpeer⟩ := h.closeOther hx (by simp [hkind]) hq
  rw [Server.smartFail, hclose]
  have hgone := hpeer y hy.1 (by simp [closesNow, hqueue])
  exact .ok ⟨hinv, .inl ⟨show (-1) < 0 by decide, iff_of_true ⟨hs, hgone⟩ hbad⟩⟩

theorem Inv.smartSendFail (reason : String) :
    Safe (Answered s q bad) (a.smartSendFail s reason) := by
  obtain ⟨hne, y, hy, -⟩ := h.smart_peer hx hkind hq
  have hok := h.localOk hy.1 hy.2.1
  have hset : Inv idle (a.set q { y with status := y.status ++ [.fail reason] }) :=
    h.set hy.1 rfl rfl rfl rfl (fun _ => rfl) (fun _ => hok.notify) (fun _ _ => Iff.rfl)
      (fun _ _ => (hok.settled not_false).congr rfl rfl) (fun _ => False.elim)
  have hfail := hset.smartFail ((set_heap_of_ne a _ hne.symm).trans hx) hkind hq hbad
  rw [Server.smartSendFail, get_eq hx]
  simp only [ok_bind_eq, hq, follow, Option.elim, modify_eq hy.1]
  exact hfail

/-- A request for a service of the host, unless it is to track devices and the list cannot be
written. -/
theorem Inv.smartHost (hy : a.OpenAt q y) (service : List UInt8) (answer : HostAnswer)
    (hkeeps : service ∈ trackDevices → answer.handled = false →
      (y.sock.enqueue answer.devices answer.results).2 ≠ .failed) :
    Safe (Answered s q bad) (a.smartHost s service answer) := by
  obtain ⟨hne, -⟩ := h.smart_peer hx hkind hq
  have hset := h.set_smart hx hkind
    (z := { x with transport := answer.transport.elim x.transport some }) rfl rfl rfl rfl
  have hx' := set_heap_self a s { x with transport := answer.transport.elim x.transport some }
  have hy' := (set_heap_of_ne a { x with transport := answer.transport.elim x.transport some }
    hne).trans hy.1
  rw [Server.smartHost, get_eq hx]
  show Safe _ (follow x.peer >>= _)
  rw [follow_eq hq]
  show Safe _ (a.get q >>= _)
  rw [get_eq hy.1]
  refine .ite (fun _ => hset.smartFail hx' hkind hq hbad) fun hhandled => ?_
  refine .ite (fun _ => ?_) fun _ => ?_
  · refine .ok ⟨hset.set_smart hx' hkind rfl rfl rfl rfl, .inr ⟨Int.le_refl 0, y, ?_, hy.2.1⟩⟩
    exact (set_heap_of_ne _ _ hne).trans hy'
  refine .ite (fun htrack => ?_) fun _ => ?_
  · obtain ⟨a', hrun, hinv, hcases⟩ := hset.smartTrack hx' hkind hq hy' answer
    have hlive := hcases.resolve_left fun hlost =>
      hkeeps htrack (by simpa using hhandled) hlost.1
    exact .of_eq hrun ⟨hinv, .inr ⟨Int.le_refl 0, hlive.2⟩⟩
  refine .ite (fun _ => hset.smartSendFail hx' hkind hq hbad _) fun _ => ?_
  rcases hset.createLocalSocket with hfatal | ⟨hcreate, hid⟩
  · rw [hfatal]
    exact .inl rfl
  · rw [hcreate]
    have hhand := hset.handOver hid hx' hkind hq hy'
    obtain ⟨a', hready, hinv, htouches, -⟩ := hhand.ready
      (handedOver_heap_new hset hx' hy')
    refine .of_eq ((handOver_eq hset hx' hkind hne hy' _).trans (by rw [hready]; rfl)) ?_
    have hpeer := (htouches.frame q (h.ne_nextPtr hy.1)).trans (handedOver_heap_peer _ y hne)
    exact ⟨hinv, .inr ⟨Int.le_refl 0, _, hpeer, hy.2.1⟩⟩

/-- A request for a service of the device. -/
theorem Inv.smartDevice (destination : List UInt8) :
    Safe (Answered s q bad) (a.smartDevice s destination) := by
  obtain ⟨hne, y, hy, hys, -⟩ := h.smart_peer hx hkind hq
  rw [Server.smartDevice, get_eq hx]
  cases ht : x.transport with
  | none =>
    simp only [ok_bind_eq, ht]
    exact h.smartSendFail hx hkind hq hbad _
  | some t =>
    simp only [bind, Except.bind, ht]
    refine .ite (fun _ => h.smartSendFail hx hkind hq hbad _) fun _ => ?_
    rw [follow_eq hq]
    simp only [modify_eq hy.1]
    have hset := set_heap_self a q { y with
      notify := true, peer := none, transport := some t }
    have hinv := h.release hx hkind hq hy.1 (z := { y with
      notify := true, peer := none, transport := some t }) rfl rfl rfl rfl
    rcases connectToRemote_cases hset rfl rfl destination with hfatal | ⟨pk, hsend⟩
    · rw [hfatal]
      exact .inl rfl
    rw [hsend]
    simp only
    have hx' : (Server.sendPacket (a.set q { y with
        notify := true, peer := none, transport := some t }) t pk).heap s = some x :=
      (set_heap_of_ne a _ hne.symm).trans hx
    rw [modify_eq hx']
    simp only
    rw [closeSocket_unpeered (set_heap_self _ s _) (by simp [hkind]) rfl]
    refine .of_eq rfl ⟨?_, .inr ⟨show 0 ≤ 1 by decide, ?_⟩⟩
    · refine (hinv.sendPacket t pk).congr ?_ rfl rfl rfl rfl
      simp [Server.set, Server.cut, Server.sendPacket, update_comm hne]
    · exact ⟨{ y with notify := true, peer := none, transport := some t },
        by simp [Server.set, Server.sendPacket, hne], hy.2.1⟩

end

/-- A packet for a smart socket, unless it loses the client. -/
theorem Inv.smartSocketEnqueue (hy : a.OpenAt q y) {n : Nat} (hn : a.getMaxPayload s = .ok n)
    (p : List UInt8) (answer : HostAnswer) (hkeeps : ¬ LosesClient x n p answer y) :
    Safe (Answered s q (Unanswered x n p)) (a.smartSocketEnqueue s p answer) := by
  obtain ⟨hne, -⟩ := h.smart_peer hx hkind hq
  have hrequest : ∀ (sock : LocalSocket) (p : List UInt8), sock.closing = x.sock.closing →
      ¬ TracksInVain p answer y →
      Safe (Answered s q (BadTransportId p))
        ((a.set s { x with sock }).smartRequest s p answer) := by
    intro sock p hclosing hkeeps
    have hset := h.set_smart hx hkind (z := { x with sock }) rfl rfl rfl hclosing
    have hx' := set_heap_self a s { x with sock }
    have hlive : (a.set s { x with sock }).Live q :=
      ⟨y, (set_heap_of_ne a _ hne).trans hy.1, hy.2.1⟩
    refine .ite (fun _ => .ok ⟨hset, .inr ⟨Int.le_refl 0, hlive⟩⟩) fun _ => ?_
    refine .ite (fun _ => hset.smartFail hx' hkind hq fun hbad => ?_) fun _ => ?_
    · obtain ⟨-, hpos, hmax, -⟩ := hbad
      omega
    refine .ite (fun _ => .ok ⟨hset, .inr ⟨Int.le_refl 0, hlive⟩⟩) fun _ => ?_
    cases hparse : parseRequest
      (((p.drop 4).take (unhex (p.take 4))).takeWhile (· ≠ 0)) with
    | badTransportId =>
      -- nothing is closed here
      simp only [hparse]
      refine .ok ⟨hset, .inl ⟨show (-1) < 0 by decide, iff_of_false ?_ (not_not.mpr ?_)⟩⟩
      · rintro ⟨hgone, -⟩
        cases hx'.symm.trans hgone
      · exact ⟨by omega, by omega, by omega, by omega, hparse⟩
    | host service =>
      simp only [hparse]
      refine hset.smartHost hx' hkind hq (fun hbad => ?_)
        ⟨(set_heap_of_ne a _ hne).trans hy.1, hy.2⟩ _ answer fun htrack hhandled hfailed => ?_
      · cases hparse.symm.trans hbad.2.2.2.2
      · exact hkeeps ⟨by omega, by omega, by omega, by omega, ⟨service, htrack, hparse⟩,
          hhandled, hfailed⟩
    | device =>
      simp only [hparse]
      refine hset.smartDevice hx' hkind hq (fun hbad => ?_) _
      cases hparse.symm.trans hbad.2.2.2.2
  rw [Server.smartSocketEnqueue, get_eq hx]
  show Safe _ (a.getMaxPayload s >>= _)
  rw [hn]
  cases hqueue : x.sock.pktQueue with
  | nil =>
    have hbad : Unanswered x n p = BadTransportId p := by simp [Unanswered, hqueue]
    rw [hbad]
    refine hrequest _ p rfl fun hlost => hkeeps ?_
    simpa [LosesClient, hqueue] using hlost
  | cons first rest =>
    refine .ite (fun hlong => h.smartFail hx hkind hq fun hbad => ?_) fun hshort => ?_
    · have hle := hbad.2 (by simp [hqueue])
      rw [hqueue, List.headD_cons, List.length_append] at hle
      omega
    · have hbad : Unanswered x n p = BadTransportId (first ++ p) := by
        simp [Unanswered, hqueue, Nat.le_of_not_lt hshort]
      rw [hbad]
      refine hrequest _ (first ++ p) rfl fun hlost => hkeeps ?_
      simpa [LosesClient, hqueue, Nat.le_of_not_lt hshort] using hlost

/-- A packet that loses the client: the request is answered, and the client is gone. -/
theorem Inv.smartSocketEnqueue_lost (hy : a.OpenAt q y) {n : Nat} (hn : a.getMaxPayload s = .ok n)
    {p : List UInt8} {answer : HostAnswer} (hlost : LosesClient x n p answer y) :
    ∃ a', a.smartSocketEnqueue s p answer = .ok (a', 0) ∧ a'.heap q = none := by
  obtain ⟨hne, -⟩ := h.smart_peer hx hkind hq
  have hother : ∀ service ∈ trackDevices, ¬ transportService.isPrefixOf service = true := by
    decide
  have hrequest : ∀ (sock : LocalSocket) (p : List UInt8), sock.closing = x.sock.closing →
      TracksInVain p answer y →
      ∃ a', (a.set s { x with sock }).smartRequest s p answer = .ok (a', 0) ∧
        a'.heap q = none := by
    rintro sock p hclosing ⟨hfour, hpos, hmax, hfull, ⟨service, htrack, hparse⟩, hhandled, hfailed⟩
    have hset := h.set_smart hx hkind (z := { x with sock }) rfl rfl rfl hclosing
    have hset' := hset.set_smart (set_heap_self a s _) hkind
      (z := { x with sock, transport := answer.transport.elim x.transport some }) rfl rfl rfl rfl
    have hx' := set_heap_self (a.set s { x with sock }) s
      { x with sock, transport := answer.transport.elim x.transport some }
    have hy' := (set_heap_of_ne a { x with sock } hne).trans hy.1
    obtain ⟨a', hrun, -, hcases⟩ := hset'.smartTrack hx' hkind hq
      ((set_heap_of_ne _ _ hne).trans hy') answer
    refine ⟨a', ?_, (hcases.resolve_right fun hlive => hlive.1 hfailed).2⟩
    rw [smartRequest, if_neg (by omega), if_neg (by omega), if_neg (by omega)]
    simp only [hparse]
    rw [Server.smartHost, get_eq (set_heap_self a s _)]
    show (follow x.peer >>= _) = _
    rw [follow_eq hq]
    show (Server.get _ q >>= _) = _
    rw [get_eq hy']
    show (if _ then _ else _) = _
    rw [if_neg (by simp [hhandled]), if_neg (hother service htrack), if_pos htrack]
    exact hrun
  obtain ⟨hvain, hshort⟩ := hlost
  rw [Server.smartSocketEnqueue, get_eq hx]
  show ∃ a', (a.getMaxPayload s >>= _) = _ ∧ _
  rw [hn]
  cases hqueue : x.sock.pktQueue with
  | nil =>
    rw [hqueue] at hvain
    exact hrequest _ p rfl hvain
  | cons first rest =>
    rw [hqueue] at hvain hshort
    have hle := hshort (List.cons_ne_nil _ _)
    rw [List.headD_cons, List.length_append] at hle
    show ∃ a', (if n < first.length + p.length then _ else _) = _ ∧ _
    rw [if_neg (by omega)]
    exact hrequest _ (first ++ p) rfl hvain

end

/-! ### The readable half -/

/-- The end of the readable half. -/
theorem Inv.eventReadEnd (h : Inv idle a) (hs : a.Live s) (r : Int) (eof forceEof : Bool) :
    Safe (Inv idle) (a.eventReadEnd s r eof forceEof) := by
  obtain ⟨x, hx, hkind⟩ := hs
  rw [Server.eventReadEnd, get_eq hx]
  refine .ite (fun _ => ?_) fun _ => .ok h
  obtain ⟨a', hclose, hinv, -⟩ := (h.unsettle s).closeSocket hx hkind
  exact .of_eq hclose hinv

/-- What follows a packet that the peer has taken: no more events when it waits, and the end
of the stream. -/
theorem Inv.afterEnqueue (h : Inv idle a) (hs : a.Live s) (r : Int) (eof forceEof : Bool) :
    Safe (Inv idle) (do
      let a ← if 0 < r then a.modify s fun x => { x with
        sock := { x.sock with fdeRead := false } } else .ok a
      a.eventReadEnd s r eof forceEof) := by
  by_cases hr : 0 < r
  · obtain ⟨x, hx, hkind⟩ := hs
    have hok := h.localOk hx hkind
    have hsettled := hok.settled not_false
    have hset : Inv idle (a.set s { x with sock := { x.sock with fdeRead := false } }) :=
      h.setSock hx hkind rfl (fun _ => { hsettled with }) False.elim
    rw [if_pos hr, modify_eq hx]
    exact hset.eventReadEnd ⟨_, set_heap_self a s _, hkind⟩ r eof forceEof
  · rw [if_neg hr]
    exact h.eventReadEnd hs r eof forceEof

/-- What `enqueue` of the peer `p` does not survive: the peer is a local socket that cannot be
written while the socket `x` itself has nothing pending, or it is a smart socket that reads a
request to track devices and cannot write the first list to `x`. -/
def PeerFrees (a : Server) (x : Asocket) (p : Ptr) (data : List UInt8) (ev : FdEvent) : Prop :=
  ∃ y, a.heap p = some y ∧
    (y.kind = .local ∧ x.sock.pktQueue = [] ∧
        (y.sock.enqueue data ev.peerResults).2 = .failed ∨
      y.kind = .smart ∧ ∃ n, a.getMaxPayload p = .ok n ∧ LosesClient y n data ev.answer x)

/-- A read event hands data to a peer that frees the socket. -/
def ReadHazard (a : Server) (s : Ptr) (ev : FdEvent) : Prop :=
  ∃ x p n, a.heap s = some x ∧ x.peer = some p ∧ a.getMaxPayload s = .ok n ∧
    ev.data.take n ≠ [] ∧ PeerFrees a x p (ev.data.take n) ev

/-- The peer takes a packet. -/
theorem Inv.enqueue (h : Inv idle a) (hx : a.heap s = some x) (hkind : x.kind = .local)
    (hp : x.peer = some p) (data : List UInt8) (ev : FdEvent)
    (hsafe : ¬ PeerFrees a x p data ev) : Safe (Handed s) (a.enqueue p data ev) := by
  obtain ⟨hne, y, hy, hys, -⟩ := (h.good s x hx).peer p hp
  rw [Server.enqueue, get_eq hy]
  simp only [ok_bind_eq]
  cases hk : y.kind with
  | «local» =>
    have hopen : a.OpenAt p y := ⟨hy, hk, ((h.localOk hy hk).open_of_peer hys).1⟩
    by_cases hfailed : (y.sock.enqueue data ev.peerResults).2 = .failed
    · -- the socket is closed with its peer, but waits until its queue is written
      obtain ⟨a', henqueue, hinv, hclosed, -⟩ := h.enqueue_failed hopen hfailed
      have hnow : x.sock.closesNow = false := by
        have hsettled := (h.localOk hx hkind).settled not_false
        have hqueue : x.sock.pktQueue ≠ [] := fun hnil =>
          hsafe ⟨y, hy, .inl ⟨hk, hnil, hfailed⟩⟩
        simp [closesNow, hqueue, hsettled.noError, ((h.localOk hx hkind).open_of_peer hp).1]
      have hs := hclosed.peer s x hys hx hkind
      rw [hnow] at hs
      have hlive : a'.Live s := ⟨_, hs, hkind⟩
      exact .of_eq henqueue ⟨hinv, .inr ⟨show 0 ≤ 1 by decide, hlive⟩⟩
    · obtain ⟨a', r, henqueue, hr, hinv, htouches, -⟩ :=
        h.enqueue_ok hopen hys hx (by simp [hkind]) hfailed
      refine .of_eq henqueue ⟨hinv, .inr ⟨?_, x, (htouches.frame s hne.symm).trans hx, hkind⟩⟩
      rcases hr with rfl | rfl
      · exact Int.le_refl 0
      · exact show 0 ≤ 1 by decide
  | remote =>
    obtain ⟨t, ht⟩ := (h.good p y hy).transport hk
    have henqueue : a.remoteSocketEnqueue p data
        = .ok (a.sendPacket t ⟨.wrte, x.id, y.id, data⟩, 1) := by
      rw [remoteSocketEnqueue, get_eq hy]
      simp only [ok_bind_eq, follow_eq hys, get_eq hx, follow_eq ht]
      rfl
    exact .of_eq henqueue ⟨h.sendPacket _ _, .inr ⟨show 0 ≤ 1 by decide, x, hx, hkind⟩⟩
  | smart =>
    obtain ⟨n, hn⟩ := h.getMaxPayload hy
    have hopen : a.OpenAt s x := ⟨hx, hkind, ((h.localOk hx hkind).open_of_peer hp).1⟩
    exact (h.smartSocketEnqueue hy hk hys hopen hn data ev.answer fun hlost =>
      hsafe ⟨y, hy, .inr ⟨hk, n, hn, hlost⟩⟩).imp fun r hr => ⟨hr.1, hr.2.imp_left And.left⟩
  | tracker =>
    obtain ⟨a', hclose, hinv, -⟩ := h.closeOther hy (by simp [hk]) hys
    rw [deviceTrackerEnqueue, hclose]
    exact .ok ⟨hinv, .inl (show (-1) < 0 by decide)⟩

theorem localSocketEventFunc_eq {ev : FdEvent} {a' : Server} {goOn : Bool}
    (heq : (if ev.write then a.eventWrite s ev.results else .ok (a, true)) = .ok (a', goOn)) :
    a.localSocketEventFunc s ev
      = if ev.read = true ∧ goOn = true then a'.eventRead s ev else .ok a' := by
  rw [localSocketEventFunc]
  by_cases hev : ev.write = true
  · rw [if_pos hev] at heq ⊢
    rw [heq]
    rfl
  · rw [if_neg hev] at heq ⊢
    rw [heq]
    rfl

variable (h : Inv idle a) (hs : a.Live s) (ev : FdEvent)
include h hs

/-- The readable half keeps the invariant, unless the peer frees the socket. -/
theorem Inv.eventRead (hsafe : ¬ ReadHazard a s ev) : Safe (Inv idle) (a.eventRead s ev) := by
  obtain ⟨x, hx, hkind⟩ := hs
  obtain ⟨n, hn⟩ := h.getMaxPayload hx
  rw [Server.eventRead, get_eq hx]
  show Safe _ (a.getMaxPayload s >>= _)
  rw [hn]
  cases hp : x.peer with
  | none =>
    exact h.eventReadEnd ⟨x, hx, hkind⟩ _ _ _
  | some p =>
    refine .ite (fun _ => h.eventReadEnd ⟨x, hx, hkind⟩ _ _ _) fun hdata => ?_
    have henqueue := h.enqueue hx hkind hp (ev.data.take n) ev
      fun hfrees => hsafe ⟨x, p, n, hx, hp, hn, hdata, hfrees⟩
    refine henqueue.bind ?_
    rintro ⟨a', r⟩ ⟨hinv, hr | ⟨hr, hlive⟩⟩
    · show Safe _ (if r < 0 then _ else _)
      rw [if_pos hr]
      exact .ok hinv
    · show Safe _ (if r < 0 then _ else _)
      rw [if_neg (Int.not_lt.mpr hr)]
      have hthere : a'.heap s ≠ none := by
        obtain ⟨x', hx', -⟩ := hlive
        rw [hx']
        nofun
      rw [if_neg hthere]
      exact hinv.afterEnqueue hlive r _ _

/-- When the peer frees the socket, the handler goes on with it. -/
theorem Inv.eventRead_fault (hazard : ReadHazard a s ev) :
    a.eventRead s ev = .error .doubleFree ∨ a.eventRead s ev = .error .useAfterFree := by
  obtain ⟨x, p, n, hx, hp, hn, hdata, y, hy, hfrees⟩ := hazard
  obtain ⟨w, hw, hkind⟩ := hs
  obtain rfl := mem_unique hx hw
  have hys := h.peer_eq hy hx hp
  have hpeer : ∃ a' r, a.enqueue p (ev.data.take n) ev = .ok (a', r) ∧ ¬ r < 0 ∧
      a'.heap s = none := by
    rw [Server.enqueue, get_eq hy]
    rcases hfrees with ⟨hk, hqueue, hfailed⟩ | ⟨hk, m, hm, hlost⟩
    · have hopen : a.OpenAt p y := ⟨hy, hk, ((h.localOk hy hk).open_of_peer hys).1⟩
      obtain ⟨a', henqueue, hinv, hclosed, -⟩ := h.enqueue_failed hopen hfailed
      have hgone := hclosed.peer s x hys hx hkind
      rw [if_pos (by simp [closesNow, hqueue])] at hgone
      simp only [ok_bind_eq, hk]
      exact ⟨a', 1, henqueue, by decide, hgone⟩
    · have hopen : a.OpenAt s x := ⟨hx, hkind, ((h.localOk hx hkind).open_of_peer hp).1⟩
      obtain ⟨a', henqueue, hgone⟩ := h.smartSocketEnqueue_lost hy hk hys hopen hm hlost
      simp only [ok_bind_eq, hk]
      exact ⟨a', 0, henqueue, by decide, hgone⟩
  obtain ⟨a', r, hpeer, hr, hgone⟩ := hpeer
  rw [Server.eventRead, get_eq hx]
  simp only [ok_bind_eq, hn, hp, if_neg hdata, hpeer]
  rw [if_neg hr, if_pos hgone]
  split
  · exact .inl rfl
  · exact .inr rfl

/-! ### The whole event -/

/-- The readable half of a descriptor event starts in a state where the peer frees the
socket. -/
def EventHazard (a : Server) (s : Ptr) (ev : FdEvent) : Prop :=
  ev.read = true ∧ ∃ a', (if ev.write then a.eventWrite s ev.results else .ok (a, true))
    = .ok (a', true) ∧ ReadHazard a' s ev

variable (hwrite : ev.write = true → ∃ x, a.heap s = some x ∧ x.sock.fdeWrite = true)
include hwrite

/-- The writable half, when there is one. -/
theorem Inv.writeHalf :
    ∃ a' goOn, (if ev.write then a.eventWrite s ev.results else .ok (a, true))
      = .ok (a', goOn) ∧ Inv idle a' ∧ (goOn = true → a'.Live s) := by
  by_cases hev : ev.write = true
  · obtain ⟨x, hx, hfde⟩ := hwrite hev
    obtain ⟨w, hw, hkind⟩ := hs
    obtain rfl := mem_unique hx hw
    rw [if_pos hev]
    exact h.eventWrite hx hkind hfde ev.results
  · rw [if_neg hev]
    exact ⟨a, true, rfl, h, fun _ => hs⟩

/-- A descriptor event keeps the invariant exactly when the peer does not free the socket. -/
theorem Inv.localSocketEventFunc :
    (¬ EventHazard a s ev → Safe (Inv idle) (a.localSocketEventFunc s ev)) ∧
      (EventHazard a s ev → a.localSocketEventFunc s ev = .error .doubleFree ∨
        a.localSocketEventFunc s ev = .error .useAfterFree) := by
  obtain ⟨a', goOn, heq, hinv, hlive⟩ := h.writeHalf hs ev hwrite
  rw [localSocketEventFunc_eq heq]
  by_cases hread : ev.read = true ∧ goOn = true
  · obtain ⟨hread', rfl⟩ := hread
    rw [if_pos ⟨hread', rfl⟩]
    constructor
    · intro hsafe
      exact hinv.eventRead (hlive rfl) ev fun hhazard => hsafe ⟨hread', a', heq, hhazard⟩
    · rintro ⟨-, b, hb, hhazard⟩
      obtain ⟨rfl, -⟩ := Prod.mk.inj (Except.ok.inj (heq.symm.trans hb))
      exact hinv.eventRead_fault (hlive rfl) ev hhazard
  · rw [if_neg hread]
    constructor
    · exact fun _ => .ok hinv
    · rintro ⟨hread', b, hb, -⟩
      obtain ⟨-, rfl⟩ := Prod.mk.inj (Except.ok.inj (heq.symm.trans hb))
      exact absurd ⟨hread', rfl⟩ hread

end Server

end AndroidCore.Adb
