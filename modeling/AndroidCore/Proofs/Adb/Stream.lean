import AndroidCore.Adb.Stream
import AndroidCore.Proofs.Adb.LocalSocket
import Mathlib.Data.List.Infix

/-!
# `AndroidCore.Proofs.Adb.Stream`: flow control of a stream

The other side sends the next `A_WRTE` only behind the `A_OKAY` for the last one (`Obeys`).
Then the queue of the local socket has at most one packet, and `A_OKAY` is sent by the call
that writes the last byte of it: `handle_packet` when everything is written at once, and the
handler of writable events otherwise. `Acknowledged` says this of the whole history.

In the other direction a readable event sends one `A_WRTE` and switches readable events off.
`FDE_READ` is set exactly while the last `A_WRTE` is answered, but it does not keep all
readable events away: `fdevent_process` reports a hang-up as a readable event in any case.
`run_flow_iff` says that the socket sends an `A_WRTE` too early exactly when such an event
finds data.
-/

namespace AndroidCore.Adb

namespace History

/-- An `A_OKAY` is sent for the only `A_WRTE` that was not acknowledged yet, and all bytes of
it are written by then. As long as the stream is not closed, only an `A_WRTE` with unwritten
bytes waits for its `A_OKAY`. -/
structure Acknowledged (h : History) : Prop where
  okay : ∀ past, (Entry.sentOkay :: past) <:+ h →
    accepts past = okays past + 1 ∧ written past = payloads past
  all : Entry.closed ∉ h →
    accepts h = okays h ∨ (accepts h = okays h + 1 ∧ written h ≠ payloads h)

/-- An `A_WRTE` is sent only when the last one has been answered. -/
def Paced (h : History) : Prop :=
  ∀ p past, (Entry.sentWrte p :: past) <:+ h → answered past = true

/-- What holds of all `A_OKAY` packets. -/
def OkaysInTime (h : History) : Prop :=
  ∀ past, (Entry.sentOkay :: past) <:+ h →
    accepts past = okays past + 1 ∧ written past = payloads past

theorem OkaysInTime.cons {h : History} (hh : OkaysInTime h) {e : Entry}
    (he : e = .sentOkay → accepts h = okays h + 1 ∧ written h = payloads h) :
    OkaysInTime (e :: h) := by
  intro past hpast
  rcases List.suffix_cons_iff.mp hpast with heq | hpast
  · obtain ⟨rfl, rfl⟩ := List.cons.inj heq
    exact he rfl
  · exact hh past hpast

theorem paced_cons_iff {h : History} {e : Entry} :
    Paced (e :: h) ↔ Paced h ∧ ∀ p, e = .sentWrte p → answered h = true := by
  constructor
  · intro hpaced
    refine ⟨fun p past hpast => hpaced p past (hpast.trans (List.suffix_cons e h)), ?_⟩
    rintro p rfl
    exact hpaced p h (List.suffix_refl _)
  · rintro ⟨hpaced, he⟩ p past hpast
    rcases List.suffix_cons_iff.mp hpast with heq | hpast
    · obtain ⟨rfl, rfl⟩ := List.cons.inj heq
      exact he p rfl
    · exact hpaced p past hpast

end History

open History List

namespace Stream

variable {st : Stream} {payload : Nat}

/-! ### The invariant -/

/-- A connected stream. -/
structure Open (st : Stream) : Prop where
  alive : st.destroyed = false
  closing : st.sock.closing = false
  noError : st.sock.hasWriteError = false
  fdeWrite : st.sock.fdeWrite = true ↔ st.sock.pktQueue ≠ []
  bytes : written st.history ++ st.sock.pktQueue.flatten = payloads st.history
  count : accepts st.history = okays st.history + if st.sock.pktQueue = [] then 0 else 1
  rest : st.sock.pktQueue ≠ [] → st.sock.pktQueue.flatten ≠ []
  notClosed : Entry.closed ∉ st.history
  answered : answered st.history = st.sock.fdeRead

/-- A stream at any time. -/
structure Flow (st : Stream) : Prop where
  okays : OkaysInTime st.history
  isOpen : st.connected = true → Open st
  closed : st.connected = false → Entry.closed ∈ st.history ∧
    (st.destroyed = true ∨ st.sock.closing = true)

/-- The invariant says that every `A_WRTE` is acknowledged. -/
theorem Flow.acknowledged (h : Flow st) : Acknowledged st.history := by
  refine ⟨h.okays, fun hclosed => ?_⟩
  have hconnected : st.connected = true := by
    by_contra hnot
    exact hclosed (h.closed (by simpa using hnot)).1
  have hopen := h.isOpen hconnected
  have hcount := hopen.count
  by_cases hqueue : st.sock.pktQueue = []
  · rw [if_pos hqueue] at hcount
    exact .inl hcount
  · rw [if_neg hqueue] at hcount
    refine .inr ⟨hcount, fun heq => ?_⟩
    have hbytes := hopen.bytes
    rw [heq, append_right_eq_self] at hbytes
    exact hopen.rest hqueue hbytes

theorem flow_opened : Flow opened := by
  refine ⟨?_, fun _ => ?_, by simp [opened]⟩
  · intro past hpast
    cases eq_nil_of_suffix_nil hpast
  · constructor <;> simp [opened, LocalSocket.new, written, payloads, accepts, okays,
      History.answered]

/-! ### Closing -/

/-- What is left behind `local_socket_close`. -/
theorem close_spec (st : Stream) :
    st.close.history = (if st.connected then .closed :: st.history else st.history) ∧
      st.close.connected = false ∧ (st.close.destroyed = true ∨ st.close.sock.closing = true) := by
  unfold close
  by_cases hconnected : st.connected = true <;> by_cases hnow : st.sock.closesNow = true <;>
    simp [hconnected, note, hnow, LocalSocket.startClosing]

/-- A stream may be closed at any time. -/
theorem flow_close (hokays : OkaysInTime st.history)
    (hclosed : st.connected = false → Entry.closed ∈ st.history) : Flow st.close := by
  obtain ⟨hhistory, hconnected, hends⟩ := close_spec st
  refine ⟨?_, by simp [hconnected], fun _ => ⟨?_, hends⟩⟩
  · rw [hhistory]
    split
    · exact hokays.cons (by simp)
    · exact hokays
  · rw [hhistory]
    split
    · exact mem_cons_self
    · rename_i hconnected
      exact hclosed (by simpa using hconnected)

/-! ### Packets -/

theorem noteWritten_eq (st : Stream) {sock : LocalSocket} {bytes : List UInt8}
    (hbytes : sock.written = st.sock.written ++ bytes) :
    st.noteWritten sock = { st with sock, history := .wrote bytes :: st.history } := by
  simp [noteWritten, note, hbytes]

variable {ev : Server.FdEvent}

section
variable (h : Flow st)
include h

/-- An `A_WRTE` behind the last `A_OKAY`. -/
theorem Flow.handleWrte (hconnected : st.connected = true)
    (hobeys : accepts st.history = History.okays st.history) (p : List UInt8)
    (results : List WriteResult) : Flow (st.handleWrte p results) := by
  have hopen := h.isOpen hconnected
  have hqueue : st.sock.pktQueue = [] := by
    by_contra hne
    have hcount := hopen.count
    rw [if_neg hne] at hcount
    omega
  have hbytes := hopen.bytes
  rw [hqueue, flatten_nil, append_nil] at hbytes
  have hokays : ∀ w, OkaysInTime (.wrote w :: .accepted p :: st.history) :=
    fun w => (h.okays.cons (by simp)).cons (by simp)
  unfold Stream.handleWrte
  rcases st.sock.enqueue_cases p results with
    ⟨w, heq, -, rfl⟩ | ⟨w, rest, heq, hall, hrest⟩ | ⟨w, rest, heq, -, -⟩ <;>
    simp only [heq] <;> rw [noteWritten_eq _ rfl]
  · -- everything is written at once
    refine ⟨(hokays w).cons fun _ => ⟨?_, ?_⟩, fun _ => ?_, by simp [note, hconnected]⟩
    · show accepts st.history + 1 = History.okays st.history + 1
      rw [hobeys]
    · show written st.history ++ w = payloads st.history ++ w
      rw [hbytes]
    · refine { hopen with bytes := ?_, count := ?_, notClosed := ?_ }
      · show written st.history ++ w ++ st.sock.pktQueue.flatten = payloads st.history ++ w
        rw [hqueue, hbytes, flatten_nil, append_nil]
      · show accepts st.history + 1
          = History.okays st.history + 1 + if st.sock.pktQueue = [] then 0 else 1
        rw [if_pos hqueue, hobeys]
      · simpa [note] using hopen.notClosed
  · -- a part of it waits in the queue
    have hrest := hrest hqueue
    rw [hqueue, nil_append, flatten_nil, append_nil, append_assoc, append_cancel_left_eq] at hall
    refine ⟨hokays w, fun _ => ?_, by simp [note, hconnected]⟩
    refine { hopen with fdeWrite := ?_, bytes := ?_, count := ?_, rest := ?_, notClosed := ?_ }
    · simp [LocalSocket.push]
    · show written st.history ++ w ++ (st.sock.pktQueue ++ [rest]).flatten
        = payloads st.history ++ p
      rw [hqueue, hbytes, ← hall]
      simp
    · show accepts st.history + 1
        = History.okays st.history + if st.sock.pktQueue ++ [rest] = [] then 0 else 1
      rw [if_neg (by simp), hobeys]
    · intro _
      show (st.sock.pktQueue ++ [rest]).flatten ≠ []
      rw [hqueue]
      simpa using hrest
    · simpa [note] using hopen.notClosed
  · -- the stream is closed instead
    exact flow_close (hokays w) (by simp [note, hconnected])

theorem Flow.handleOkay (hconnected : st.connected = true) : Flow st.handleOkay := by
  have hopen := h.isOpen hconnected
  refine ⟨h.okays.cons (by simp), fun _ => ?_, by simp [Stream.handleOkay, note, hconnected]⟩
  exact { hopen with
    notClosed := by simpa [Stream.handleOkay, note] using hopen.notClosed, answered := rfl }

/-! ### Events of the descriptor -/

/-- The writable half. -/
theorem Flow.eventWrite (halive : st.destroyed = false)
    (hwrite : st.sock.fdeWrite = true) (results : List WriteResult) :
    Flow (st.eventWrite results).1 ∧
      ((st.eventWrite results).2 = true →
        (st.eventWrite results).1.sock.fdeRead = st.sock.fdeRead) := by
  have hclosed : st.connected = false → Entry.closed ∈ st.history := fun hc => (h.closed hc).1
  have hokays : ∀ w, OkaysInTime (.wrote w :: st.history) := fun w => h.okays.cons (by simp)
  have hmem : ∀ w, st.connected = false → Entry.closed ∈ Entry.wrote w :: st.history :=
    fun w hc => mem_cons_of_mem _ (hclosed hc)
  obtain ⟨w, queue, hbytes, hrest, hcases⟩ := st.sock.drain_cases results
  rw [append_assoc, append_cancel_left_eq] at hbytes
  unfold Stream.eventWrite
  rcases hcases with ⟨rfl, heq⟩ | ⟨hne, heq⟩ | ⟨hne, heq⟩ <;> simp only [heq] <;>
    rw [noteWritten_eq _ rfl]
  · by_cases hclosing : st.sock.closing = true
    · rw [if_pos hclosing]
      exact ⟨flow_close (hokays w) (hmem w), by simp⟩
    · -- the last byte of an `A_WRTE` is written, and it is acknowledged
      rw [if_neg hclosing]
      have hconnected : st.connected = true := by
        by_contra hnot
        rcases (h.closed (by simpa using hnot)).2 with hdestroyed | hclosing'
        · rw [halive] at hdestroyed
          cases hdestroyed
        · exact hclosing hclosing'
      have hopen := h.isOpen hconnected
      have hcount := hopen.count
      rw [if_neg (hopen.fdeWrite.mp hwrite)] at hcount
      have hall : written st.history ++ w = payloads st.history := by
        rw [← hopen.bytes, hbytes, flatten_nil, append_nil]
      refine ⟨⟨(hokays w).cons fun _ => ⟨hcount, hall⟩, fun _ => ?_,
        by simp [note, hconnected]⟩, fun _ => rfl⟩
      refine { hopen with fdeWrite := ?_, bytes := ?_, count := ?_, rest := ?_, notClosed := ?_ }
      · simp [note, hopen.closing]
      · simpa [note, written, payloads] using hall
      · show accepts st.history = History.okays st.history + 1 + 0
        exact hcount
      · simp [note]
      · simpa [note] using hopen.notClosed
  · refine ⟨⟨hokays w, fun hconnected => ?_, fun hc => ⟨hmem w hc, (h.closed hc).2⟩⟩, by simp⟩
    have hopen := h.isOpen hconnected
    refine { hopen with
      fdeWrite := iff_of_true hwrite hne, bytes := ?_, count := ?_, rest := fun _ => hrest hne
      notClosed := by simpa using hopen.notClosed }
    · show written st.history ++ w ++ queue.flatten = payloads st.history
      rw [append_assoc, ← hbytes, hopen.bytes]
    · have hcount := hopen.count
      rw [if_neg (hopen.fdeWrite.mp hwrite)] at hcount
      show accepts st.history = History.okays st.history + if queue = [] then 0 else 1
      rw [if_neg hne, hcount]
  · exact ⟨flow_close (hokays w) (hmem w), by simp⟩

/-- The writable half, when there is one. -/
theorem Flow.writeHalf (halive : st.destroyed = false)
    (hwrite : ev.write = true → st.sock.fdeWrite = true) :
    Flow (st.writeHalf ev).1 ∧ ((st.writeHalf ev).2 = true →
      (st.writeHalf ev).1.sock.fdeRead = st.sock.fdeRead) := by
  unfold Stream.writeHalf
  by_cases hev : ev.write = true
  · rw [if_pos hev]
    exact h.eventWrite halive (hwrite hev) ev.results
  · rw [if_neg hev]
    exact ⟨h, fun _ => rfl⟩

theorem Flow.close : Flow st.close :=
  flow_close h.okays fun hc => (h.closed hc).1

/-- The stream may be closed at the end of an event. -/
theorem Flow.close_if (c : Prop) [Decidable c] : Flow (if c then st.close else st) := by
  split
  · exact h.close
  · exact h

/-- The readable half. -/
theorem Flow.eventRead (ev : Server.FdEvent) : Flow (st.eventRead payload ev) := by
  unfold Stream.eventRead
  by_cases hsend : st.connected = true ∧ ev.data.take payload ≠ []
  · simp only [if_pos hsend]
    have hopen := h.isOpen hsend.1
    have hflow : Flow ({ st with sock := { st.sock with fdeRead := false } }.note
        (.sentWrte (ev.data.take payload))) := by
      refine ⟨h.okays.cons (by simp), fun _ => ?_, by simp [note, hsend.1]⟩
      exact { hopen with notClosed := by simpa [note] using hopen.notClosed, answered := rfl }
    exact hflow.close_if _
  · simp only [if_neg hsend]
    exact h.close_if _

/-- A descriptor event that reaches the handler. -/
def Delivered (st : Stream) (ev : Server.FdEvent) : Prop :=
  ¬ (st.destroyed = true ∨ (ev.write = true ∧ st.sock.fdeWrite = false))

end

theorem Delivered.cases (h : Delivered st ev) :
    st.destroyed = false ∧ (ev.write = true → st.sock.fdeWrite = true) := by
  rw [Delivered, not_or] at h
  refine ⟨by simpa using h.1, fun hev => ?_⟩
  by_contra hfde
  exact h.2 ⟨hev, by simpa using hfde⟩

theorem eventFunc_eq (st : Stream) (ev : Server.FdEvent) :
    st.eventFunc payload ev = if ev.read = true ∧ (st.writeHalf ev).2 = true then
      (st.writeHalf ev).1.eventRead payload ev else (st.writeHalf ev).1 :=
  rfl

theorem Flow.eventFunc (h : Flow st) (hev : Delivered st ev) : Flow (st.eventFunc payload ev) := by
  obtain ⟨hflow, -⟩ := h.writeHalf hev.cases.1 hev.cases.2
  rw [eventFunc_eq]
  split
  · exact hflow.eventRead ev
  · exact hflow

/-! ### Runs -/

/-- The other side sends `A_WRTE` only behind the `A_OKAY` for the last one. -/
def Obeys (payload : Nat) : Stream → List StreamEvent → Prop
  | _, [] => True
  | st, e :: events =>
    ((∃ p results, e = .wrte p results) → st.connected = true →
      accepts st.history = History.okays st.history) ∧ Obeys payload (st.step payload e) events

/-! ### `A_WRTE` packets of the local socket -/

/-- A descriptor event sends an `A_WRTE`: its readable half finds data on a connected
stream. -/
def Sends (payload : Nat) (st : Stream) (ev : Server.FdEvent) : Prop :=
  Delivered st ev ∧ ev.read = true ∧ (st.writeHalf ev).2 = true ∧
    (st.writeHalf ev).1.connected = true ∧ ev.data.take payload ≠ []

@[simp] theorem paced_note {e : Entry} (he : ∀ p, e ≠ .sentWrte p) :
    Paced (st.note e).history ↔ Paced st.history := by
  rw [note, paced_cons_iff]
  exact and_iff_left fun p heq => absurd heq (he p)

@[simp] theorem paced_noteWritten (st : Stream) (sock : LocalSocket) :
    Paced (st.noteWritten sock).history ↔ Paced st.history := by
  rw [noteWritten, paced_note (by simp)]

@[simp] theorem paced_close (st : Stream) : Paced st.close.history ↔ Paced st.history := by
  rw [(close_spec st).1]
  split
  · rw [paced_cons_iff]
    exact and_iff_left (by simp)
  · exact Iff.rfl

theorem paced_close_if (st : Stream) (c : Prop) [Decidable c] :
    Paced (if c then st.close else st).history ↔ Paced st.history := by
  split
  · exact paced_close st
  · exact Iff.rfl

theorem paced_handleWrte (st : Stream) (p : List UInt8) (results : List WriteResult) :
    Paced (st.handleWrte p results).history ↔ Paced st.history := by
  rw [handleWrte]
  generalize st.sock.enqueue p results = r
  obtain ⟨sock, result⟩ := r
  cases result with
  | ready | backlog | failed => simp

theorem paced_writeHalf (st : Stream) (ev : Server.FdEvent) :
    Paced (st.writeHalf ev).1.history ↔ Paced st.history := by
  unfold writeHalf
  by_cases hev : ev.write = true
  · rw [if_pos hev, eventWrite]
    generalize st.sock.drain ev.results = r
    obtain ⟨sock, how⟩ := r
    cases how with
    | blocked | failed => simp
    | done =>
      by_cases hclosing : sock.closing = true
      · simp [hclosing]
      · simp [hclosing]
  · rw [if_neg hev]

/-- The readable half keeps the pace exactly when the last `A_WRTE` is answered before it sends
one. -/
theorem paced_eventRead (st : Stream) (ev : Server.FdEvent) :
    Paced (st.eventRead payload ev).history ↔ Paced st.history ∧
      (st.connected = true ∧ ev.data.take payload ≠ [] → answered st.history = true) := by
  unfold eventRead
  by_cases hsend : st.connected = true ∧ ev.data.take payload ≠ []
  · simp only [if_pos hsend]
    rw [paced_close_if, note, paced_cons_iff]
    refine and_congr_right fun _ => ?_
    constructor
    · exact fun hpace _ => hpace _ rfl
    · exact fun hpace _ _ => hpace hsend
  · simp only [if_neg hsend]
    rw [paced_close_if]
    exact (and_iff_left fun hsend' => absurd hsend' hsend).symm

/-- A descriptor event keeps the pace exactly when it does not send before the last `A_WRTE`
is answered. -/
theorem Flow.paced_eventFunc (h : Flow st) (hev : Delivered st ev) :
    Paced (st.eventFunc payload ev).history ↔
      Paced st.history ∧ (Sends payload st ev → st.sock.fdeRead = true) := by
  obtain ⟨hflow, hread⟩ := h.writeHalf hev.cases.1 hev.cases.2
  rw [eventFunc_eq]
  by_cases hgo : ev.read = true ∧ (st.writeHalf ev).2 = true
  · rw [if_pos hgo, paced_eventRead, paced_writeHalf]
    refine and_congr_right fun _ => ?_
    -- `FDE_READ` is set exactly while the last `A_WRTE` is answered
    have hanswered : (st.writeHalf ev).1.connected = true →
        answered (st.writeHalf ev).1.history = st.sock.fdeRead :=
      fun hconnected => (hflow.isOpen hconnected).answered.trans (hread hgo.2)
    constructor
    · intro hpace hsends
      rw [← hanswered hsends.2.2.2.1]
      exact hpace hsends.2.2.2
    · intro hpace hsend
      rw [hanswered hsend.1]
      exact hpace ⟨hev, hgo.1, hgo.2, hsend⟩
  · rw [if_neg hgo, paced_writeHalf]
    exact (and_iff_left fun hsends => absurd ⟨hsends.2.1, hsends.2.2.1⟩ hgo).symm

/-- Every event keeps the invariant, and the pace under the same condition. -/
theorem Flow.step (h : Flow st) (e : StreamEvent)
    (hobeys : (∃ p results, e = .wrte p results) → st.connected = true →
      accepts st.history = History.okays st.history) :
    Flow (st.step payload e) ∧ (Paced (st.step payload e).history ↔ Paced st.history ∧
      ∀ ev, e = .fd ev → Sends payload st ev → st.sock.fdeRead = true) := by
  unfold Stream.step
  cases e with
  | wrte p results =>
    simp only [reduceCtorEq, false_imp_iff, implies_true, and_true]
    by_cases hconnected : st.connected = true
    · simp only [if_pos hconnected]
      exact ⟨h.handleWrte hconnected (hobeys ⟨p, results, rfl⟩ hconnected) p results,
        paced_handleWrte st p results⟩
    · simp only [if_neg hconnected]
      exact ⟨h, trivial⟩
  | okay =>
    simp only [reduceCtorEq, false_imp_iff, implies_true, and_true]
    by_cases hconnected : st.connected = true
    · simp only [if_pos hconnected]
      exact ⟨h.handleOkay hconnected, paced_note (by simp)⟩
    · simp only [if_neg hconnected]
      exact ⟨h, trivial⟩
  | clse =>
    simp only [reduceCtorEq, false_imp_iff, implies_true, and_true]
    exact ⟨h.close_if _, paced_close_if st _⟩
  | fd ev =>
    have hforall : (∀ ev', StreamEvent.fd ev = .fd ev' → Sends payload st ev' →
        st.sock.fdeRead = true) ↔ (Sends payload st ev → st.sock.fdeRead = true) := by simp
    rw [hforall]
    by_cases hev : st.destroyed = true ∨ (ev.write = true ∧ st.sock.fdeWrite = false)
    · simp only [if_pos hev]
      exact ⟨h, (and_iff_left fun hsends => absurd hev hsends.1).symm⟩
    · simp only [if_neg hev]
      exact ⟨h.eventFunc hev, h.paced_eventFunc hev⟩

/-- A run from any state of a stream. -/
theorem Flow.foldl (h : Flow st) (events : List StreamEvent) (hobeys : Obeys payload st events) :
    Flow (events.foldl (Stream.step payload) st) ∧
      (Paced (events.foldl (Stream.step payload) st).history ↔ Paced st.history ∧
        ∀ before ev after, events = before ++ .fd ev :: after →
          Sends payload (before.foldl (Stream.step payload) st) ev →
          (before.foldl (Stream.step payload) st).sock.fdeRead = true) := by
  induction events generalizing st with
  | nil => exact ⟨h, (and_iff_left (by simp)).symm⟩
  | cons e events ih =>
    obtain ⟨hstep, hfirst⟩ := h.step e hobeys.1
    obtain ⟨hflow, hpaced⟩ := ih hstep hobeys.2
    refine ⟨hflow, ?_⟩
    rw [foldl_cons, hpaced, hfirst, and_assoc]
    refine and_congr_right fun _ => ?_
    constructor
    · rintro ⟨hfirst, hlater⟩ before ev after heq
      cases before with
      | nil =>
        obtain ⟨rfl, -⟩ := cons.inj heq
        exact hfirst ev rfl
      | cons e' before =>
        obtain ⟨rfl, hrest⟩ := cons.inj heq
        exact hlater before ev after hrest
    · intro hall
      refine ⟨?_, ?_⟩
      · rintro ev rfl
        exact hall [] ev events rfl
      · intro before ev after heq
        exact hall (e :: before) ev after (by rw [heq]; rfl)

/-- In every run in which the other side obeys the flow control, every `A_WRTE` is
acknowledged exactly once and in time, and the local socket sends its own `A_WRTE` packets one
by one exactly when no descriptor event finds data while `FDE_READ` is off. -/
theorem run_flow_iff (payload : Nat) (events : List StreamEvent)
    (hobeys : Obeys payload opened events) :
    (Acknowledged (run payload events).history ∧ Paced (run payload events).history) ↔
      ∀ before ev after, events = before ++ .fd ev :: after →
        Sends payload (run payload before) ev → (run payload before).sock.fdeRead = true := by
  obtain ⟨hflow, hpaced⟩ := flow_opened.foldl events hobeys
  have hopened : Paced opened.history := by
    intro p past hpast
    cases eq_nil_of_suffix_nil hpast
  refine (and_iff_right hflow.acknowledged).trans (hpaced.trans ?_)
  exact and_iff_right hopened

/-- A client that sends two packets and hangs up. -/
def hangUp : List StreamEvent :=
  let quiet : Server.FdEvent :=
    ⟨false, true, [], [], false, false, [], ⟨false, none, false, [], []⟩⟩
  [.fd { quiet with data := [1, 2, 3, 4] }, .fd { quiet with data := [5, 6, 7, 8] }]

/-- The second packet is sent although the first one is not answered. -/
theorem hangUp_not_paced : ¬ Paced (run 4 hangUp).history := by
  intro hpaced
  have hearly := hpaced [5, 6, 7, 8] [.sentWrte [1, 2, 3, 4]] (suffix_refl _)
  cases hearly

/-- An `A_WRTE` that is written in two parts, and one packet in the other direction. -/
theorem run_flow_twoParts :
    Paced (run 4 [.wrte [1, 2, 3] [.wrote 0], .fd
      ⟨true, true, [.wrote 1], [9], false, false, [], ⟨false, none, false, [], []⟩⟩]).history := by
  refine ((run_flow_iff 4 _ ?_).mpr ?_).2
  · refine ⟨fun _ _ => rfl, ?_, trivial⟩
    rintro ⟨p, results, ⟨⟩⟩
  · intro before ev after heq _
    rcases before with _ | ⟨e, _ | ⟨e', before⟩⟩
    · cases heq
    · cases heq
      rfl
    · simp at heq

end Stream

end AndroidCore.Adb
