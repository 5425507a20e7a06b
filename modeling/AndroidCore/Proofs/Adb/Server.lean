import AndroidCore.Adb.Packets
import AndroidCore.Lib.ExceptBind
import Mathlib.Data.List.Nodup

/-!
# `AndroidCore.Proofs.Adb.Server`: the invariant of the sockets

`Inv` says how the sockets of a server hang together between two events: which list a local
socket is on, that pointers to peers lead back, that ids on the local list are not 0 and
differ, and what the queue of a local socket has to do with its flags.

While a socket is being closed, some of this does not hold for it: it has lost its peer, a
write has failed, or its queue is empty although it is closing. The sockets that `U` holds of
are in such a state. All that is left for them is that `local_socket_close` will destroy them
or find `FDE_WRITE` set.
-/

namespace AndroidCore.Adb

namespace Server

variable {a : Server} {U : Ptr → Prop} {s : Ptr} {x : Asocket}

/-! ### Steps on the heap -/

theorem get_eq (h : a.heap s = some x) : a.get s = .ok x := by
  rw [get, h]
  rfl

theorem modify_eq (h : a.heap s = some x) (f : Asocket → Asocket) :
    a.modify s f = .ok (a.set s (f x)) := by
  rw [modify, get_eq h]
  rfl

theorem follow_eq {p : Option Ptr} (h : p = some s) : follow p = .ok s := by
  rw [h]
  rfl

theorem free_eq (h : a.heap s = some x) :
    a.free s = .ok { a with heap := Function.update a.heap s none } := by
  rw [free, h]
  rfl

@[simp] theorem set_heap_self (a : Server) (s : Ptr) (x : Asocket) :
    (a.set s x).heap s = some x := by
  simp [set]

theorem set_heap_of_ne (a : Server) (x : Asocket) {q : Ptr} (h : q ≠ s) :
    (a.set s x).heap q = a.heap q := by
  simp [set, h]

theorem set_eq_self (h : a.heap s = some x) : a.set s x = a := by
  simp [set, ← h]

/-! ### The invariant -/

/-- A local socket that no event is being handled for. -/
structure Settled (a : Server) (x : Asocket) : Prop where
  noError : x.sock.hasWriteError = false
  fdeWrite : x.sock.fdeWrite = true ↔ x.sock.pktQueue ≠ []
  closing : x.sock.closing = true → x.sock.pktQueue ≠ []
  connected : x.sock.pktQueue ≠ [] → x.sock.closing = false →
    ∃ p y, x.peer = some p ∧ a.heap p = some y ∧ y.kind ≠ .smart

/-- What holds of every local socket. -/
structure LocalOk (a : Server) (U : Ptr → Prop) (s : Ptr) (x : Asocket) : Prop where
  notify : x.notify = true → x.peer = none
  closing : x.sock.closing = true → x.peer = none
  id_pos : x.sock.closing = false → 0 < x.id
  id_lt : x.sock.closing = false → x.id < a.localSocketNextId
  settled : ¬ U s → Settled a x
  unsettled : U s → x.sock.closesNow = true ∨ x.sock.fdeWrite = true

/-- What holds of every socket. -/
structure Good (a : Server) (U : Ptr → Prop) (s : Ptr) (x : Asocket) : Prop where
  peer : ∀ p, x.peer = some p →
    p ≠ s ∧ ∃ y, a.heap p = some y ∧ y.peer = some s ∧ (x.kind = .local ∨ y.kind = .local)
  localOk : x.kind = .local → LocalOk a U s x
  hasPeer : x.kind ≠ .local → ∃ p, x.peer = some p
  transport : x.kind = .remote → ∃ t, x.transport = some t
  smartId : x.kind = .smart → x.id = 0

/-- A local socket that is not being closed. -/
def OpenAt (a : Server) (s : Ptr) (x : Asocket) : Prop :=
  a.heap s = some x ∧ x.kind = .local ∧ x.sock.closing = false

/-- A local socket that waits until its queue is written. -/
def ClosingAt (a : Server) (s : Ptr) (x : Asocket) : Prop :=
  a.heap s = some x ∧ x.kind = .local ∧ x.sock.closing = true

/-- How the sockets of a server hang together. -/
structure Inv (U : Ptr → Prop) (a : Server) : Prop where
  fresh : ∀ s, a.nextPtr ≤ s → a.heap s = none
  nextId_pos : 0 < a.localSocketNextId
  nextId_lt : a.localSocketNextId < 2 ^ 32
  localNodup : a.localSocketList.Nodup
  closingNodup : a.localSocketClosingList.Nodup
  mem_local : ∀ s, s ∈ a.localSocketList ↔ ∃ x, a.OpenAt s x
  mem_closing : ∀ s, s ∈ a.localSocketClosingList ↔ ∃ x, a.ClosingAt s x
  good : ∀ s x, a.heap s = some x → Good a U s x
  ids : ∀ s s' x x', a.OpenAt s x → a.OpenAt s' x' → x.id = x'.id → s = s'

/-- No socket is in the middle of an event. -/
abbrev idle : Ptr → Prop := fun _ => False

/-- One socket is in the middle of an event. -/
abbrev only (s : Ptr) : Ptr → Prop := fun q => q = s

/-- Two sockets are. -/
abbrev both (s p : Ptr) : Ptr → Prop := fun q => q = s ∨ q = p

section
variable (h : Inv U a) (hx : a.heap s = some x)
include h hx

theorem Inv.allocated : s < a.nextPtr := by
  by_contra hge
  rw [h.fresh s (Nat.le_of_not_lt hge)] at hx
  cases hx

theorem Inv.localOk (hkind : x.kind = .local) : LocalOk a U s x :=
  (h.good s x hx).localOk hkind

/-- A socket that another one has as its peer. -/
theorem Inv.peer_eq {q : Ptr} {z : Asocket} (hz : a.heap q = some z)
    (hzs : z.peer = some s) : x.peer = some q := by
  obtain ⟨-, w, hw, hwq, -⟩ := (h.good q z hz).peer s hzs
  obtain rfl := Option.mem_unique hx hw
  exact hwq

/-- A local socket is on one of the lists. -/
theorem Inv.mem_lists (hkind : x.kind = .local) :
    s ∈ a.localSocketList ∨ s ∈ a.localSocketClosingList := by
  cases hclosing : x.sock.closing with
  | true => exact .inr ((h.mem_closing s).mpr ⟨x, hx, hkind, hclosing⟩)
  | false => exact .inl ((h.mem_local s).mpr ⟨x, hx, hkind, hclosing⟩)

end

/-- `local_socket_close` destroys a local socket or finds `FDE_WRITE` set. -/
theorem Settled.ready (h : Settled a x) : x.sock.closesNow = true ∨ x.sock.fdeWrite = true := by
  by_cases hqueue : x.sock.pktQueue = []
  · simp [LocalSocket.closesNow, hqueue]
  · exact .inr (h.fdeWrite.mpr hqueue)

/-- A local socket that is settled may as well be in the middle of an event. -/
theorem Inv.unsettle (h : Inv idle a) (s : Ptr) : Inv (only s) a := by
  refine { h with good := fun q y hy => ?_ }
  have hgood := h.good q y hy
  refine { hgood with localOk := fun hkind => ?_ }
  have hok := hgood.localOk hkind
  have hsettled := hok.settled not_false
  exact { hok with settled := fun _ => hsettled, unsettled := fun _ => hsettled.ready }

/-! ### Changes to some of the sockets -/

/-- The sockets of `D` are created, overwritten or freed, and all others stay: what has to
be known about those of `D` so that `Inv` is kept. -/
structure Change (D U V : Ptr → Prop) (a a' : Server) : Prop where
  frame : ∀ q, ¬ D q → a'.heap q = a.heap q
  nextPtr : a.nextPtr ≤ a'.nextPtr
  below : ∀ q, D q → q < a'.nextPtr
  nextId : a.localSocketNextId ≤ a'.localSocketNextId
  nextId_lt : a'.localSocketNextId < 2 ^ 32
  localNodup : a'.localSocketList.Nodup
  closingNodup : a'.localSocketClosingList.Nodup
  local_frame : ∀ q, ¬ D q → (q ∈ a'.localSocketList ↔ q ∈ a.localSocketList)
  closing_frame : ∀ q, ¬ D q → (q ∈ a'.localSocketClosingList ↔ q ∈ a.localSocketClosingList)
  mem_local : ∀ q, D q → (q ∈ a'.localSocketList ↔ ∃ x, a'.OpenAt q x)
  mem_closing : ∀ q, D q → (q ∈ a'.localSocketClosingList ↔ ∃ x, a'.ClosingAt q x)
  exempt : ∀ q, ¬ D q → (V q ↔ U q)
  good : ∀ q z, D q → a'.heap q = some z → Good a' V q z
  peers : ∀ q z p, ¬ D q → a.heap q = some z → z.peer = some p → D p →
    ∃ y y', a.heap p = some y ∧ a'.heap p = some y' ∧ y'.peer = some q ∧ y'.kind = y.kind
  ids : ∀ q z, D q → a'.OpenAt q z →
    (∃ x, a.OpenAt q x ∧ x.id = z.id) ∨ (q = a.nextPtr ∧ z.id = a.localSocketNextId)

variable {D V : Ptr → Prop} {a' : Server}

section
variable (c : Change D U V a a') (hD : ¬ D s) (hx : a.heap s = some x)
include c hD hx

/-- The peer of a socket that stays is still there. -/
theorem Change.peer {p : Ptr} {y : Asocket} (hp : x.peer = some p) (hy : a.heap p = some y)
    (hys : y.peer = some s) : ∃ y', a'.heap p = some y' ∧ y'.peer = some s ∧ y'.kind = y.kind := by
  by_cases hDp : D p
  · obtain ⟨w, y', hw, hy', hpeer, hkind⟩ := c.peers s x p hD hx hp hDp
    obtain rfl := Option.mem_unique hy hw
    exact ⟨y', hy', hpeer, hkind⟩
  · exact ⟨y, (c.frame p hDp).trans hy, hys, rfl⟩

/-- A socket that stays is as good as before. -/
theorem Change.good_frame (hgood : Good a U s x) : Good a' V s x := by
  refine { hgood with peer := ?_, localOk := fun hkind => ?_ }
  · intro p hp
    obtain ⟨hne, y, hy, hys, hkinds⟩ := hgood.peer p hp
    obtain ⟨y', hy', hys', hkind'⟩ := c.peer hD hx hp hy hys
    exact ⟨hne, y', hy', hys', hkind' ▸ hkinds⟩
  · have hok := hgood.localOk hkind
    refine { hok with
      id_lt := fun hc => Nat.lt_of_lt_of_le (hok.id_lt hc) c.nextId, settled := ?_
      unsettled := fun hV => hok.unsettled ((c.exempt s hD).mp hV) }
    intro hV
    have hsettled := hok.settled fun hU => hV ((c.exempt s hD).mpr hU)
    refine { hsettled with connected := ?_ }
    intro hqueue hopen
    obtain ⟨p, y, hp, hy, hsmart⟩ := hsettled.connected hqueue hopen
    obtain ⟨-, w, hw, hws, -⟩ := hgood.peer p hp
    obtain rfl := Option.mem_unique hy hw
    obtain ⟨y', hy', -, hkind'⟩ := c.peer hD hx hp hy hws
    exact ⟨p, y', hp, hy', hkind' ▸ hsmart⟩

end

/-- An open socket behind the change was one before, with the same id, or is new. -/
theorem Change.openAt (c : Change D U V a a') (hx : a'.OpenAt s x) :
    (∃ y, a.OpenAt s y ∧ y.id = x.id) ∨ (s = a.nextPtr ∧ x.id = a.localSocketNextId) := by
  by_cases hD : D s
  · exact c.ids s x hD hx
  · exact .inl ⟨x, ⟨(c.frame s hD).symm.trans hx.1, hx.2⟩, rfl⟩

theorem Inv.openAt_id_lt (h : Inv U a) (hx : a.OpenAt s x) : x.id < a.localSocketNextId :=
  (h.localOk hx.1 hx.2.1).id_lt hx.2.2

/-- `Inv` is kept by such a change. -/
theorem Inv.change (h : Inv U a) (c : Change D U V a a') : Inv V a' := by
  constructor
  case fresh =>
    intro q hq
    by_cases hD : D q
    · exact absurd (c.below q hD) (Nat.not_lt.mpr hq)
    · rw [c.frame q hD]
      exact h.fresh q (Nat.le_trans c.nextPtr hq)
  case nextId_pos => exact Nat.lt_of_lt_of_le h.nextId_pos c.nextId
  case nextId_lt => exact c.nextId_lt
  case localNodup => exact c.localNodup
  case closingNodup => exact c.closingNodup
  case mem_local =>
    intro q
    by_cases hD : D q
    · exact c.mem_local q hD
    · rw [c.local_frame q hD, h.mem_local]
      simp [OpenAt, c.frame q hD]
  case mem_closing =>
    intro q
    by_cases hD : D q
    · exact c.mem_closing q hD
    · rw [c.closing_frame q hD, h.mem_closing]
      simp [ClosingAt, c.frame q hD]
  case good =>
    intro q z hz
    by_cases hD : D q
    · exact c.good q z hD hz
    · have hz' := (c.frame q hD).symm.trans hz
      exact c.good_frame hD hz' (h.good q z hz')
  case ids =>
    intro q q' z z' hz hz' hids
    rcases c.openAt hz with ⟨w, hw, hwz⟩ | ⟨hq, hid⟩
    · rcases c.openAt hz' with ⟨w', hw', hwz'⟩ | ⟨-, hid'⟩
      · exact h.ids q q' w w' hw hw' (by rw [hwz, hwz', hids])
      · -- an id that was there is below the next id
        have := h.openAt_id_lt hw
        omega
    · rcases c.openAt hz' with ⟨w', hw', hwz'⟩ | ⟨hq', -⟩
      · have := h.openAt_id_lt hw'
        omega
      · rw [hq, hq']

/-- A local socket on the local list or on the closing one, with its id. -/
def LocalAt (a : Server) (s : Ptr) (closing : Bool) (id : Nat) : Prop :=
  ∃ x, a.heap s = some x ∧ x.kind = .local ∧ x.sock.closing = closing ∧ x.id = id

theorem exists_localAt {closing : Bool} : (∃ id, a.LocalAt s closing id) ↔
    ∃ x, a.heap s = some x ∧ x.kind = .local ∧ x.sock.closing = closing := by
  constructor
  · rintro ⟨id, x, hx, hkind, hclosing, -⟩
    exact ⟨x, hx, hkind, hclosing⟩
  · rintro ⟨x, hx, hkind, hclosing⟩
    exact ⟨x.id, x, hx, hkind, hclosing, rfl⟩

/-- A change that leaves every local socket on its list and with its id. -/
theorem Inv.changeInPlace (h : Inv U a) (hlocal : a'.localSocketList = a.localSocketList)
    (hclosing : a'.localSocketClosingList = a.localSocketClosingList)
    (hnextId : a'.localSocketNextId = a.localSocketNextId) (hnextPtr : a.nextPtr ≤ a'.nextPtr)
    (hframe : ∀ q, ¬ D q → a'.heap q = a.heap q) (hbelow : ∀ q, D q → q < a'.nextPtr)
    (hsame : ∀ q, D q → ∀ closing id, a'.LocalAt q closing id ↔ a.LocalAt q closing id)
    (hexempt : ∀ q, ¬ D q → (V q ↔ U q))
    (hgood : ∀ q z, D q → a'.heap q = some z → Good a' V q z)
    (hpeers : ∀ q z p, ¬ D q → a.heap q = some z → z.peer = some p → D p →
      ∃ y y', a.heap p = some y ∧ a'.heap p = some y' ∧ y'.peer = some q ∧ y'.kind = y.kind) :
    Inv V a' := by
  refine h.change ⟨hframe, hnextPtr, hbelow, hnextId.ge, hnextId ▸ h.nextId_lt,
    hlocal ▸ h.localNodup, hclosing ▸ h.closingNodup, fun q _ => by rw [hlocal],
    fun q _ => by rw [hclosing], fun q hq => ?_, fun q hq => ?_, hexempt, hgood, hpeers,
    fun q z hq hz => ?_⟩
  · rw [hlocal, h.mem_local]
    exact exists_localAt.symm.trans
      ((exists_congr fun id => (hsame q hq false id).symm).trans exists_localAt)
  · rw [hclosing, h.mem_closing]
    exact exists_localAt.symm.trans
      ((exists_congr fun id => (hsame q hq true id).symm).trans exists_localAt)
  · obtain ⟨x, hx, hkind, hopen, hid⟩ :=
      (hsame q hq false z.id).mp ⟨z, hz.1, hz.2.1, hz.2.2, rfl⟩
    exact .inl ⟨x, ⟨hx, hkind, hopen⟩, hid⟩

/-- A socket is overwritten with one of the same shape. -/
theorem Inv.set (h : Inv U a) (hx : a.heap s = some x) {y : Asocket} (hkind : y.kind = x.kind)
    (hpeer : y.peer = x.peer) (hid : y.id = x.id) (hclosing : y.sock.closing = x.sock.closing)
    (htransport : y.kind = .remote → y.transport = x.transport)
    (hnotify : y.kind = .local → y.notify = true → y.peer = none)
    (hV : ∀ q, q ≠ s → (V q ↔ U q)) (hsettled : y.kind = .local → ¬ V s → Settled a y)
    (hunsettled : y.kind = .local → V s → y.sock.closesNow = true ∨ y.sock.fdeWrite = true) :
    Inv V (a.set s y) := by
  have hgood := h.good s x hx
  have hopen : ∀ z, (a.set s y).heap s = some z → z = y := by
    intro z hz
    rw [set_heap_self] at hz
    exact (Option.some.inj hz).symm
  refine h.changeInPlace rfl rfl rfl (Nat.le_refl _)
    (fun q => set_heap_of_ne a y) ?_ ?_ hV ?_ ?_
  case refine_1 =>
    rintro q rfl
    exact h.allocated hx
  case refine_2 =>
    simp [LocalAt, hx, hkind, hclosing, hid]
  case refine_3 =>
    rintro q z rfl hz
    obtain rfl := hopen z hz
    refine ⟨?_, fun hlocal => ?_, ?_, ?_, ?_⟩
    · intro p hp
      obtain ⟨hne, w, hw, hwp, hk⟩ := hgood.peer p (hpeer ▸ hp)
      exact ⟨hne, w, (set_heap_of_ne a z hne).trans hw, hwp, hkind ▸ hk⟩
    · have hok := hgood.localOk (hkind ▸ hlocal)
      refine ⟨hnotify hlocal, ?_, ?_, ?_, ?_, hunsettled hlocal⟩
      · intro hc
        rw [hpeer]
        exact hok.closing (hclosing ▸ hc)
      · intro hc
        rw [hid]
        exact hok.id_pos (hclosing ▸ hc)
      · intro hc
        rw [hid]
        exact hok.id_lt (hclosing ▸ hc)
      · intro hVq
        have hz' := hsettled hlocal hVq
        refine { hz' with connected := ?_ }
        intro hqueue hopen'
        obtain ⟨p, w, hp, hw, hsmart⟩ := hz'.connected hqueue hopen'
        have hne := (hgood.peer p (hpeer ▸ hp)).1
        exact ⟨p, w, hp, (set_heap_of_ne a z hne).trans hw, hsmart⟩
    · intro hk
      rw [hpeer]
      exact hgood.hasPeer (hkind ▸ hk)
    · intro hk
      rw [htransport hk]
      exact hgood.transport (hkind ▸ hk)
    · intro hk
      rw [hid]
      exact hgood.smartId (hkind ▸ hk)
  case refine_4 =>
    rintro q z p hq hz hp rfl
    exact ⟨x, y, hx, set_heap_self a p y, hpeer.trans (h.peer_eq hx hz hp), hkind⟩

/-- The descriptor side of a local socket changes, and it is no more and no less closing. -/
theorem Inv.setSock (h : Inv U a) (hx : a.heap s = some x) (hkind : x.kind = .local)
    {sock : LocalSocket} (hclosing : sock.closing = x.sock.closing)
    (hsettled : ¬ U s → Settled a { x with sock })
    (hunsettled : U s → sock.closesNow = true ∨ sock.fdeWrite = true) :
    Inv U (a.set s { x with sock }) :=
  h.set hx rfl rfl rfl hclosing (fun _ => rfl) (fun _ => (h.localOk hx hkind).notify)
    (fun _ _ => Iff.rfl) (fun _ => hsettled) (fun _ => hunsettled)

end Server

end AndroidCore.Adb
