import AndroidCore.Adb.LocalSocket

/-!
# `AndroidCore.Proofs.Adb.LocalSocket`: a local socket delivers its byte stream

`writeLoop_spec` and `drainLoop_spec` say what the loops of writes do: they move bytes from
the front of the queue to the descriptor and lose none. So the bytes written and the bytes in
the queue are the payloads handed to the socket (`Delivering`), until a write fails or the
socket is destroyed. `run_delivers` is the result over every sequence of events with at most
one close.
-/

namespace AndroidCore.Adb

open List LocalSocket

/-! ### The loops of writes -/

/-- The writes of a packet take bytes from its front. The loop ends with `done` exactly when
nothing is left of it. -/
theorem writeLoop_spec (results : List WriteResult) (p : List UInt8) :
    (writeLoop results p).written ++ (writeLoop results p).rest = p ∧
      ((writeLoop results p).how = .done ↔ (writeLoop results p).rest = []) := by
  induction results generalizing p with
  | nil => cases p <;> simp [writeLoop]
  | cons r results ih =>
    cases p with
    | nil => simp [writeLoop]
    | cons b p =>
      cases r with
      | wrote n =>
        obtain ⟨hbytes, hdone⟩ := ih ((b :: p).drop (n + 1))
        refine ⟨?_, hdone⟩
        show (b :: p).take (n + 1) ++ _ ++ (writeLoop results _).rest = b :: p
        rw [append_assoc, hbytes, take_append_drop]
      | again | failed => simp [writeLoop]

/-- The same for the queue. -/
theorem LocalSocket.drainLoop_spec (results : List WriteResult) (queue : List (List UInt8)) :
    (drainLoop results queue).1 ++ (drainLoop results queue).2.1.flatten = queue.flatten ∧
      ((drainLoop results queue).2.2 = .done ↔ (drainLoop results queue).2.1 = []) ∧
      ((drainLoop results queue).2.1 ≠ [] → (drainLoop results queue).2.1.flatten ≠ []) := by
  induction queue generalizing results with
  | nil => simp [drainLoop]
  | cons p queue ih =>
    obtain ⟨hbytes, hdone⟩ := writeLoop_spec results p
    -- what is left of a packet that is not written is not empty
    have hrest : (writeLoop results p).how ≠ .done →
        ((writeLoop results p).rest :: queue).flatten ≠ [] := by
      intro hhow hnil
      rw [flatten_cons, append_eq_nil_iff] at hnil
      exact hhow (hdone.mpr hnil.1)
    rw [drainLoop]
    cases hhow : (writeLoop results p).how with
    | done =>
      obtain ⟨ihbytes, ihdone, ihrest⟩ := ih (writeLoop results p).results
      rw [hdone.mp hhow, append_nil] at hbytes
      refine ⟨?_, ihdone, ihrest⟩
      show _ ++ _ ++ _ = _
      rw [append_assoc, ihbytes, hbytes, flatten_cons]
    | blocked | failed =>
      refine ⟨?_, by simp, fun _ => hrest (by simp [hhow])⟩
      show _ ++ ((writeLoop results p).rest :: queue).flatten = _
      rw [flatten_cons, ← append_assoc, hbytes, flatten_cons]

namespace LocalSocket

/-! ### What the operations do to a socket -/

/-- `enqueue` adds the packet to the bytes written and the bytes in the queue. Only when a
write fails, a part of it is lost. -/
theorem enqueue_cases (s : LocalSocket) (p : List UInt8) (results : List WriteResult) :
    (∃ written, s.enqueue p results = ({ s with written := s.written ++ written }, .ready) ∧
      s.pktQueue = [] ∧ written = p) ∨
    (∃ written rest, s.enqueue p results
        = ({ s with written := s.written ++ written }.push rest, .backlog) ∧
      s.written ++ written ++ (s.pktQueue ++ [rest]).flatten
        = s.written ++ s.pktQueue.flatten ++ p ∧ (s.pktQueue = [] → rest ≠ [])) ∨
    (∃ written rest, s.enqueue p results
        = ({ s with written := s.written ++ written, hasWriteError := true }, .failed) ∧
      s.pktQueue = [] ∧ written ++ rest = p) := by
  unfold enqueue
  by_cases hqueue : s.pktQueue = []
  · rw [if_neg (not_not.mpr hqueue)]
    obtain ⟨hbytes, hdone⟩ := writeLoop_spec results p
    cases hhow : (writeLoop results p).how with
    | done =>
      rw [hdone.mp hhow, append_nil] at hbytes
      exact .inl ⟨_, by simp only [hhow], hqueue, hbytes⟩
    | blocked =>
      refine .inr (.inl ⟨_, _, by simp only [hhow]; rfl, ?_, ?_⟩)
      · rw [hqueue]
        simp [hbytes]
      · intro _ hrest
        rw [hdone.mpr hrest] at hhow
        cases hhow
    | failed => exact .inr (.inr ⟨_, _, by simp only [hhow], hqueue, hbytes⟩)
  · rw [if_pos hqueue]
    refine .inr (.inl ⟨[], p, by simp, ?_, fun hnil => absurd hnil hqueue⟩)
    simp

/-- `drain` moves bytes from the queue to the descriptor. -/
theorem drain_cases (s : LocalSocket) (results : List WriteResult) :
    ∃ written queue, s.written ++ s.pktQueue.flatten = s.written ++ written ++ queue.flatten ∧
      (queue ≠ [] → queue.flatten ≠ []) ∧
      ((queue = [] ∧ s.drain results = ({ s with
          written := s.written ++ written, pktQueue := []
          fdeWrite := s.closing && s.fdeWrite }, .done)) ∨
        (queue ≠ [] ∧ s.drain results = ({ s with
          written := s.written ++ written, pktQueue := queue }, .blocked)) ∨
        (queue ≠ [] ∧ s.drain results = ({ s with
          written := s.written ++ written, pktQueue := queue, hasWriteError := true },
          .failed))) := by
  obtain ⟨hbytes, hdone, hrest⟩ := drainLoop_spec results s.pktQueue
  refine ⟨(drainLoop results s.pktQueue).1, (drainLoop results s.pktQueue).2.1, ?_, hrest, ?_⟩
  · rw [append_assoc, hbytes]
  · have hne : (drainLoop results s.pktQueue).2.2 ≠ .done →
        (drainLoop results s.pktQueue).2.1 ≠ [] := fun hhow hnil => hhow (hdone.mpr hnil)
    unfold drain
    cases hhow : (drainLoop results s.pktQueue).2.2 with
    | done =>
      have hnil := hdone.mp hhow
      simp only [hhow, hnil]
      cases hclosing : s.closing <;> simp
    | blocked => exact .inr (.inl ⟨hne (by simp [hhow]), by simp only [hhow]⟩)
    | failed => exact .inr (.inr ⟨hne (by simp [hhow]), by simp only [hhow]⟩)

end LocalSocket

/-! ### The life of one socket -/

namespace Delivery

/-- A socket that is alive: no write has failed, the bytes written and the bytes in the queue
are the payloads, and a socket that is closing has something in its queue. -/
structure Delivering (d : Delivery) : Prop where
  alive : d.destroyed = false
  noError : d.sock.hasWriteError = false
  bytes : d.sock.written ++ d.sock.pktQueue.flatten = d.enqueued
  closing : d.sock.closing = true → d.sock.pktQueue ≠ []

/-- A socket that has been destroyed: the bytes written are a front part of the payloads, and
all of them unless a write has failed. -/
structure Delivered (d : Delivery) : Prop where
  destroyed : d.destroyed = true
  isPrefixOf : d.sock.written <+: d.enqueued
  complete : d.sock.hasWriteError = false → d.sock.written = d.enqueued

variable {d : Delivery}

theorem delivered_of_eq (hdestroyed : d.destroyed = true) (h : d.sock.written = d.enqueued) :
    Delivered d :=
  ⟨hdestroyed, h ▸ prefix_refl _, fun _ => h⟩

/-- The first close of a socket. -/
theorem Delivering.close (h : Delivering d) (hopen : d.sock.closing = false) :
    Delivering d.close ∧ d.close.sock.closing = true ∨ Delivered d.close := by
  unfold Delivery.close
  by_cases hqueue : d.sock.pktQueue = []
  · have hnow : d.sock.closesNow = true := by simp [closesNow, hqueue]
    have hbytes := h.bytes
    rw [hqueue, flatten_nil, append_nil] at hbytes
    rw [if_pos hnow]
    exact .inr (delivered_of_eq rfl hbytes)
  · have hlater : ¬ d.sock.closesNow = true := by
      simp [closesNow, hqueue, hopen, h.noError]
    rw [if_neg hlater]
    exact .inl ⟨⟨h.alive, h.noError, h.bytes, fun _ => hqueue⟩, rfl⟩

/-- A packet keeps a socket alive, or a write of it fails and the socket is destroyed. -/
theorem Delivering.enqueue (h : Delivering d) (p : List UInt8) (results : List WriteResult) :
    Delivering (d.step (.enqueue p results)) ∧
        (d.step (.enqueue p results)).sock.closing = d.sock.closing ∨
      Delivered (d.step (.enqueue p results)) := by
  rw [step, if_neg (by simp [h.alive])]
  rcases d.sock.enqueue_cases p results with
    ⟨written, heq, hqueue, rfl⟩ | ⟨written, rest, heq, hbytes, -⟩ |
    ⟨written, rest, heq, hqueue, hp⟩
  · refine .inl ⟨?_, by rw [heq]; rfl⟩
    rw [heq]
    refine ⟨h.alive, h.noError, ?_, h.closing⟩
    show d.sock.written ++ written ++ d.sock.pktQueue.flatten = d.enqueued ++ written
    rw [← h.bytes, hqueue]
    simp
  · refine .inl ⟨?_, by rw [heq]; rfl⟩
    rw [heq]
    refine ⟨h.alive, h.noError, ?_, fun _ => by simp [push]⟩
    show d.sock.written ++ written ++ (d.sock.pktQueue ++ [rest]).flatten = d.enqueued ++ p
    rw [hbytes, h.bytes]
  · -- the socket is closed by `enqueue`, and destroyed since a write has failed
    right
    rw [heq]
    show Delivered (Delivery.close _)
    rw [Delivery.close, if_pos (by simp [closesNow])]
    refine ⟨rfl, ?_, fun herror => by cases herror⟩
    show d.sock.written ++ written <+: d.enqueued ++ p
    rw [← h.bytes, hqueue, ← hp]
    simp [← append_assoc]

/-- A writable event keeps a socket alive, or the socket is destroyed: everything has been
written and it is closing, or a write has failed. -/
theorem Delivering.writable (h : Delivering d) (results : List WriteResult) :
    Delivering (d.step (.writable results)) ∧
        (d.step (.writable results)).sock.closing = d.sock.closing ∨
      Delivered (d.step (.writable results)) := by
  rw [step]
  by_cases hfde : d.sock.fdeWrite = false
  · rw [if_pos (.inr hfde)]
    exact .inl ⟨h, rfl⟩
  rw [if_neg (by simp [h.alive, hfde])]
  obtain ⟨written, queue, hbytes, -, hcases⟩ := d.sock.drain_cases results
  rw [h.bytes] at hbytes
  rcases hcases with ⟨rfl, heq⟩ | ⟨hne, heq⟩ | ⟨hne, heq⟩
  · rw [heq]
    rw [flatten_nil, append_nil] at hbytes
    by_cases hclosing : d.sock.closing = true
    · -- the last packet of a closing socket: it is destroyed
      right
      show Delivered (if d.sock.closing = true then Delivery.close _ else _)
      rw [if_pos hclosing, Delivery.close, if_pos (by simp [closesNow])]
      exact delivered_of_eq rfl hbytes.symm
    · left
      show Delivering (if d.sock.closing = true then _ else _) ∧
        (if d.sock.closing = true then _ else _ : Delivery).sock.closing = d.sock.closing
      rw [if_neg hclosing]
      refine ⟨⟨h.alive, h.noError, ?_, fun hcontra => absurd hcontra hclosing⟩, rfl⟩
      show d.sock.written ++ written ++ [].flatten = d.enqueued
      rw [hbytes, flatten_nil, append_nil]
  · rw [heq]
    exact .inl ⟨⟨h.alive, h.noError, hbytes.symm, fun _ => hne⟩, rfl⟩
  · right
    rw [heq]
    show Delivered (Delivery.close _)
    rw [Delivery.close, if_pos (by simp [closesNow])]
    refine ⟨rfl, ?_, fun herror => by cases herror⟩
    show d.sock.written ++ written <+: d.enqueued
    rw [hbytes]
    exact prefix_append _ _

/-- Nothing happens to a destroyed socket. -/
theorem Delivered.step (h : Delivered d) (e : SocketEvent) : d.step e = d := by
  cases e <;> simp [Delivery.step, h.destroyed]

theorem Delivered.foldl (h : Delivered d) (events : List SocketEvent) :
    events.foldl Delivery.step d = d := by
  induction events with
  | nil => rfl
  | cons e events ih => rw [foldl_cons, h.step, ih]

/-- The events keep a socket alive or destroy it properly, if it is closed at most once: not
again when it is closing already. -/
theorem Delivering.foldl (h : Delivering d) {events : List SocketEvent}
    (hcloses : events.count .close ≤ if d.sock.closing then 0 else 1) :
    Delivering (events.foldl Delivery.step d) ∨ Delivered (events.foldl Delivery.step d) := by
  induction events generalizing d with
  | nil => exact .inl h
  | cons e events ih =>
    rw [foldl_cons]
    have hnext : ∀ d', (Delivering d' ∧ d'.sock.closing = d.sock.closing ∨ Delivered d') →
        events.count .close ≤ (if d.sock.closing then 0 else 1) →
        Delivering (events.foldl Delivery.step d') ∨
          Delivered (events.foldl Delivery.step d') := by
      rintro d' (⟨hd', hclosing⟩ | hd') hcount
      · exact ih hd' (by rw [hclosing]; exact hcount)
      · rw [hd'.foldl]
        exact .inr hd'
    cases e with
    | enqueue p results => exact hnext _ (h.enqueue p results) (by simpa using hcloses)
    | writable results => exact hnext _ (h.writable results) (by simpa using hcloses)
    | close =>
      rw [count_cons_self] at hcloses
      cases hclosing : d.sock.closing with
      | true =>
        rw [hclosing, if_pos rfl] at hcloses
        omega
      | false =>
        rw [hclosing, if_neg (by decide)] at hcloses
        have hstep : d.step .close = d.close := by simp [Delivery.step, h.alive]
        rw [hstep]
        rcases h.close hclosing with ⟨hd', hclosing'⟩ | hd'
        · apply ih hd'
          omega
        · rw [hd'.foldl]
          exact .inr hd'

theorem delivering_new : Delivering new := ⟨rfl, rfl, rfl, fun h => by cases h⟩

/-- Over every sequence of packets, writable events and at most one close, the bytes written
are a front part of the payloads, and a socket that is destroyed without a failed write has
written all of them. -/
theorem run_delivers (events : List SocketEvent) (hcloses : events.count .close ≤ 1) :
    (run events).sock.written <+: (run events).enqueued ∧
      ((run events).destroyed = true → (run events).sock.hasWriteError = false →
        (run events).sock.written = (run events).enqueued) := by
  rcases delivering_new.foldl hcloses with h | h
  · refine ⟨⟨_, h.bytes⟩, ?_⟩
    · intro hdestroyed
      rw [show (run events).destroyed = false from h.alive] at hdestroyed
      cases hdestroyed
  · exact ⟨h.isPrefixOf, fun _ => h.complete⟩

/-- A packet that is written in three parts, the last two of them behind the close. -/
def threeParts : List SocketEvent :=
  [.enqueue [1, 2, 3] [.wrote 0], .close, .writable [.wrote 0, .again], .writable [.wrote 0]]

theorem run_delivers_threeParts :
    (run threeParts).sock.written <+: (run threeParts).enqueued ∧
      (run threeParts).destroyed = true ∧ (run threeParts).sock.hasWriteError = false ∧
      (run threeParts).sock.written = (run threeParts).enqueued := by
  obtain ⟨hfront, hall⟩ := run_delivers threeParts (by decide)
  exact ⟨hfront, rfl, rfl, hall rfl rfl⟩

end Delivery

end AndroidCore.Adb
