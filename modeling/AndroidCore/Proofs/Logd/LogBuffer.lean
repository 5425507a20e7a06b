import AndroidCore.Logd.LogBuffer

/-!
# `AndroidCore.Proofs.Logd.LogBuffer`: squashing loses no message

Every message `log` takes is in one of three places: it was handed on as it is, it
was handed on in the count of a chatty element, or it is held back in the two slots
of its log. `account` adds the three up for one log, and `account_squash` says that
a message adds one to it. `logAll_account` is the sum over a whole run.

A slot holds a copy or a message that is held back, and the elements do not say
which. The count of `droppedElements` does: without a dropped element nothing is
held back, with a dropped element of count 0 the last message is, and with a chatty
one the messages it counts are as well. This needs `Slots`: the last element of a
log is never a chatty one.
-/

namespace AndroidCore.Logd

open List

namespace LogBuffer

/-! ### What is accounted for -/

/-- The messages an element handed on stands for. -/
def weight (e : LogBufferElement) : Nat := if e.mDropped then e.getDropped.toNat else 1

/-- The undropped elements of a log that were handed on. -/
def undropped (buf : LogBuffer) (id : LogId) : Nat :=
  buf.logged.countP fun e => decide (e.mLogId = id) && !e.mDropped

/-- The sum of the chatty counts of a log that were handed on. -/
def chatty (buf : LogBuffer) (id : LogId) : Nat :=
  ((buf.logged.filter fun e => decide (e.mLogId = id) && e.mDropped).map
    fun e => e.getDropped.toNat).sum

/-- The messages held back: none in state 0, one in state 1, and one more than the
count in state 2. -/
def held (buf : LogBuffer) (id : LogId) : Nat :=
  match buf.droppedElements id with
  | none => 0
  | some dropped => dropped.getDropped.toNat + 1

/-- The messages of a log, wherever they are. -/
def account (buf : LogBuffer) (id : LogId) : Nat :=
  buf.undropped id + buf.chatty id + buf.held id

/-- What the slots of a log hold: the last element is a message of the log, the
dropped one is of the log too, and there is none without a last one. -/
structure Slots (buf : LogBuffer) (id : LogId) : Prop where
  last_plain : ∀ e, buf.lastLoggedElements id = some e → e.mLogId = id ∧ e.mDropped = false
  dropped_id : ∀ e, buf.droppedElements id = some e → e.mLogId = id
  dropped_after : buf.lastLoggedElements id = none → buf.droppedElements id = none

theorem slots_new (id : LogId) : new.Slots id where
  last_plain := fun _ h => by simp [new] at h
  dropped_id := fun _ h => by simp [new] at h
  dropped_after := fun _ => rfl

/-! ### Small lemmas -/

section
variable (buf : LogBuffer) (id : LogId) (slots : LogId → Option LogBufferElement)

@[simp] theorem setSlot_self (e : Option LogBufferElement) : setSlot slots id e id = e := if_pos rfl

theorem setSlot_of_ne (e : Option LogBufferElement) {j : LogId} (h : j ≠ id) :
    setSlot slots id e j = slots j := if_neg h

/-- The messages of a log that were handed on. -/
def handed : Nat := buf.undropped id + buf.chatty id

theorem account_eq : buf.account id = buf.handed id + buf.held id := rfl

/-- Handing on an element of a log adds what it stands for. -/
theorem handed_logElement (e : LogBufferElement) :
    (buf.logElement e).handed id = buf.handed id + if e.mLogId = id then weight e else 0 := by
  unfold handed undropped chatty logElement weight
  simp only [countP_append, filter_append, countP_singleton, filter_cons]
  by_cases hid : e.mLogId = id
  · cases e.mDropped <;> simp [hid] <;> omega
  · simp [hid]

@[simp] theorem getDropped_setDropped (e : LogBufferElement) (count : UInt16) :
    (e.setDropped count).getDropped = count := by
  simp [LogBufferElement.setDropped, LogBufferElement.getDropped]

variable {e : LogBufferElement}

theorem getDropped_of_plain (h : e.mDropped = false) :
    e.getDropped = 0 := by simp [LogBufferElement.getDropped, h]

/-- A chatty element stands for its count. -/
theorem weight_of_getDropped (h : e.getDropped ≠ 0) : weight e = e.getDropped.toNat := by
  have hdrop : e.mDropped = true := by
    by_contra hplain
    exact h (getDropped_of_plain (by simpa using hplain))
  rw [weight, if_pos hdrop]

theorem weight_of_plain (h : e.mDropped = false) : weight e = 1 := by
  simp [weight, h]

end

/-! ### The log of a message -/

section
variable {env : Env} {buf : LogBuffer} {id : LogId} {elem currentLast : LogBufferElement}

/-- The log of a message behind it: the message is the last one, and the account of the log
has grown by one. -/
structure Took (id : LogId) (elem : LogBufferElement) (buf buf' : LogBuffer) : Prop where
  last : buf'.lastLoggedElements id = some elem
  dropped : ∀ e, buf'.droppedElements id = some e → e.mLogId = id
  account : buf'.account id = buf.account id + 1

/-- Holding a message back: the count of the element that goes to the dropped slot. -/
theorem took_holdBack {buf' : LogBuffer} (hid : currentLast.mLogId = id)
    (hlast : currentLast.mDropped = false) (count : UInt16)
    (hcount : buf'.handed id + count.toNat = buf.account id) :
    Took id elem buf (buf'.holdBack id elem currentLast count) := by
  have hdropped : (if count ≠ 0 then currentLast.setDropped count else currentLast).getDropped
      = count := by
    by_cases hzero : count = 0
    · rw [if_neg (not_not.mpr hzero), getDropped_of_plain hlast, hzero]
    · rw [if_pos hzero, getDropped_setDropped]
  refine ⟨setSlot_self .., fun e he => ?_, ?_⟩
  · simp only [holdBack, setSlot_self, Option.some.injEq] at he
    rw [← he]
    split <;> exact hid
  · have hheld : (buf'.holdBack id elem currentLast count).held id = count.toNat + 1 := by
      simp only [held, holdBack, setSlot_self, hdropped]
    rw [account_eq, hheld, ← hcount]
    rfl

section
variable (h : buf.Slots id) (hlast : buf.lastLoggedElements id = some currentLast)
include h hlast

/-- A message like the last one. -/
theorem took_logSame {m : MatchType} (hm : m ≠ .sameLiblog) :
    Took id elem buf (buf.logSame id elem currentLast m) := by
  obtain ⟨hid, hplain⟩ := h.last_plain currentLast hlast
  unfold logSame
  cases hdropped : buf.droppedElements id with
  | none =>
    refine took_holdBack hid hplain 0 ?_
    simp [account_eq, held, hdropped]
  | some dropped =>
    have hheld : buf.held id = dropped.getDropped.toNat + 1 := by simp [held, hdropped]
    simp only
    rw [if_neg (fun hand => hm hand.2)]
    by_cases hmax : dropped.getDropped = 65535
    · -- The count is full: the chatty element is handed on, and counting starts again.
      rw [if_pos hmax]
      refine took_holdBack hid hplain 1 ?_
      rw [handed_logElement, h.dropped_id dropped hdropped, if_pos rfl,
        weight_of_getDropped (by rw [hmax]; decide), account_eq, hheld]
      rfl
    · rw [if_neg hmax]
      refine took_holdBack hid hplain _ ?_
      have hlt := dropped.getDropped.toNat_lt
      have hne : dropped.getDropped.toNat ≠ 65535 := fun heq => hmax (UInt16.toNat_inj.mp heq)
      rw [account_eq, hheld]
      exact congrArg _ (Nat.mod_eq_of_lt (by simp; omega))

/-- The end of a series keeps the account. -/
theorem flush_spec :
    (buf.flush id currentLast).droppedElements id = none ∧
      (buf.flush id currentLast).handed id = buf.account id := by
  obtain ⟨hid, hplain⟩ := h.last_plain currentLast hlast
  unfold flush
  cases hdropped : buf.droppedElements id with
  | none => exact ⟨hdropped, by simp [account_eq, held, hdropped]⟩
  | some dropped =>
    refine ⟨setSlot_self .., ?_⟩
    have hheld : buf.held id = dropped.getDropped.toNat + 1 := by simp [held, hdropped]
    rw [handed_logElement, hid, if_pos rfl, weight_of_plain hplain, account_eq, hheld,
      ← Nat.add_assoc]
    congr 1
    -- In state 1 the dropped element is a copy of a message that was handed on before.
    by_cases hcount : dropped.getDropped = 0
    · rw [hcount]
      rfl
    · rw [if_pos hcount, ← weight_of_getDropped hcount]
      refine (handed_logElement buf id dropped).trans ?_
      rw [h.dropped_id dropped hdropped, if_pos rfl]

end

/-- A new message. -/
theorem took_logNew {buf' : LogBuffer} (hid : elem.mLogId = id) (hplain : elem.mDropped = false)
    (hdropped : buf'.droppedElements id = none) (hhanded : buf'.handed id = buf.account id) :
    Took id elem buf (buf'.logNew id elem) := by
  refine ⟨setSlot_self .., fun e he => ?_, ?_⟩
  · cases hdropped.symm.trans he
  · have hheld : (buf'.logNew id elem).held id = 0 := by simp [held, logNew, logElement, hdropped]
    rw [account_eq, hheld, logNew, handed_logElement, hid, if_pos rfl, weight_of_plain hplain,
      ← hhanded]
    rfl

variable (hid : elem.mLogId = id) (hplain : elem.mDropped = false)
  (hliblog : ∀ last, buf.lastLoggedElements id = some last →
    identical env elem last ≠ .sameLiblog)

include hid hplain hliblog in
/-- What `squash` does to the log of the message. -/
theorem took_squash (h : buf.Slots id) : Took id elem buf (buf.squash env id elem) := by
  unfold squash
  cases hlast : buf.lastLoggedElements id with
  | none =>
    have hdropped := h.dropped_after hlast
    exact took_logNew hid hplain hdropped (by simp [account_eq, held, hdropped])
  | some currentLast =>
    simp only
    split
    · exact took_logSame h hlast (hliblog currentLast hlast)
    · obtain ⟨hdropped, hhanded⟩ := flush_spec h hlast
      exact took_logNew hid hplain hdropped hhanded

/-! ### The other logs -/

/-- A log that is as it was. -/
structure Untouched (j : LogId) (buf buf' : LogBuffer) : Prop where
  last : buf'.lastLoggedElements j = buf.lastLoggedElements j
  dropped : buf'.droppedElements j = buf.droppedElements j
  handed : buf'.handed j = buf.handed j

variable {j : LogId} {buf' : LogBuffer}

section

variable (h : Untouched j buf buf')
include h

theorem Untouched.logElement {e : LogBufferElement} (he : e.mLogId ≠ j) :
    Untouched j buf (buf'.logElement e) :=
  { h with handed := by rw [handed_logElement, if_neg he, h.handed, Nat.add_zero] }

theorem Untouched.holdBack (hj : j ≠ id) (count : UInt16) :
    Untouched j buf (buf'.holdBack id elem currentLast count) :=
  ⟨(setSlot_of_ne _ _ _ hj).trans h.last, (setSlot_of_ne _ _ _ hj).trans h.dropped, h.handed⟩

theorem Untouched.logNew (hj : j ≠ id) (hid : elem.mLogId = id) :
    Untouched j buf (buf'.logNew id elem) := by
  refine Untouched.logElement ?_ (hid ▸ hj.symm)
  exact { h with last := (setSlot_of_ne _ _ _ hj).trans h.last }

end

include hid hliblog in
theorem untouched_squash (h : buf.Slots id) (hj : j ≠ id) :
    Untouched j buf (buf.squash env id elem) := by
  have hself : Untouched j buf buf := ⟨rfl, rfl, rfl⟩
  unfold squash
  cases hlast : buf.lastLoggedElements id with
  | none => exact hself.logNew hj hid
  | some currentLast =>
    have hlastId : currentLast.mLogId ≠ j := (h.last_plain currentLast hlast).1 ▸ hj.symm
    unfold logSame flush
    cases hdropped : buf.droppedElements id with
    | none =>
      simp only
      split
      · exact hself.holdBack hj 0
      · exact hself.logNew hj hid
    | some dropped =>
      have hlog : Untouched j buf (buf.logElement dropped) :=
        hself.logElement (h.dropped_id dropped hdropped ▸ hj.symm)
      simp only
      split
      · rw [if_neg (fun hand => hliblog currentLast hlast hand.2)]
        split
        · exact hlog.holdBack hj 1
        · exact hself.holdBack hj _
      · have hbuf : Untouched j buf
            (if dropped.getDropped ≠ 0 then buf.logElement dropped else buf) := by
          split
          · exact hlog
          · exact hself
        refine Untouched.logNew (.logElement ?_ hlastId) hj hid
        exact { hbuf with dropped := (setSlot_of_ne _ _ _ hj).trans hbuf.dropped }

include hid hplain hliblog

/-- A message adds one to the account of its log, and nothing to the others. -/
theorem account_squash (h : buf.Slots id) (j : LogId) :
    (buf.squash env id elem).account j = buf.account j + if j = id then 1 else 0 := by
  by_cases hj : j = id
  · rw [if_pos hj, hj]
    exact (took_squash hid hplain hliblog h).account
  · have hsame := untouched_squash hid hliblog h hj
    rw [if_neg hj, account_eq, account_eq, hsame.handed, held, held, hsame.dropped, Nat.add_zero]

theorem slots_squash (h : ∀ i, buf.Slots i) : (buf.squash env id elem).Slots j := by
  by_cases hj : j = id
  · subst hj
    have htook := took_squash hid hplain hliblog (h j)
    refine ⟨fun e he => ?_, htook.dropped, fun hnone => ?_⟩
    · exact Option.some.inj (htook.last.symm.trans he) ▸ ⟨hid, hplain⟩
    · cases htook.last.symm.trans hnone
  · have hsame := untouched_squash hid hliblog (h id) hj
    constructor
    · exact hsame.last ▸ (h j).last_plain
    · exact hsame.dropped ▸ (h j).dropped_id
    · exact hsame.last ▸ hsame.dropped ▸ (h j).dropped_after

end

/-! ### Every run -/

/-- The message can be logged in `buf`, and does not compare as `SAME_LIBLOG` with
the last one of its log. -/
def Plain (env : Env) (buf : LogBuffer) (m : Message) : Prop :=
  ∀ id ∈ LogId.ofInt? m.logId, m.loggable env id = true ∧
    ∀ last ∈ buf.lastLoggedElements id, identical env (m.elem id) last ≠ .sameLiblog

instance (env : Env) (buf : LogBuffer) (m : Message) : Decidable (Plain env buf m) :=
  inferInstanceAs (Decidable (∀ id ∈ LogId.ofInt? m.logId, _ ∧ ∀ last ∈ _, _ ≠ _))

/-- Every message of a run is plain when it comes. -/
def PlainRun (env : Env) : LogBuffer → List Message → Prop
  | _, [] => True
  | buf, m :: ms => Plain env buf m ∧ PlainRun env (buf.log env m).2 ms

/-- The messages a log receives. -/
def received (ms : List Message) (id : LogId) : Nat :=
  ms.countP fun m => decide (LogId.ofInt? m.logId = some id)

/-- One call of `log`. -/
theorem account_log {env : Env} {buf : LogBuffer} {m : Message} (h : ∀ i, buf.Slots i)
    (hm : Plain env buf m) (id : LogId) :
    (buf.log env m).2.account id = buf.account id + received [m] id ∧
      ∀ i, (buf.log env m).2.Slots i := by
  unfold log received
  cases hid : LogId.ofInt? m.logId with
  | none => simpa [hid] using h
  | some j =>
    obtain ⟨hlog, hliblog⟩ := hm j hid
    have hj : (m.elem j).mLogId = j := rfl
    simp only [hlog]
    refine ⟨?_, fun i => slots_squash hj rfl hliblog h⟩
    refine (account_squash hj rfl hliblog (h j) id).trans ?_
    by_cases hj : id = j
    · simp [hj, hid]
    · simp [hj, hid, Ne.symm hj]

/-- A run adds the messages a log receives to its account. -/
theorem account_logAll {env : Env} (ms : List Message) {buf : LogBuffer} (h : ∀ i, buf.Slots i)
    (hrun : PlainRun env buf ms) :
    ∀ id, (buf.logAll env ms).account id = buf.account id + received ms id := by
  induction ms generalizing buf with
  | nil => intro id; rfl
  | cons m ms ih =>
    intro id
    obtain ⟨hstep, hslots⟩ := account_log h hrun.1 id
    refine (ih hslots hrun.2 id).trans ?_
    have hcons : received (m :: ms) id = received [m] id + received ms id := by
      simp only [received, countP_cons, countP_nil]
      omega
    omega

/-- Duplicate squashing accounts for every message. Take a sequence of calls of
`log` on a new buffer whose messages are loggable and never compare as
`SAME_LIBLOG`. For every log, the messages received are the undropped elements
handed on, the counts of the chatty elements handed on, and the messages still held
back. -/
theorem logAll_account (env : Env) (ms : List Message) (h : PlainRun env new ms) (id : LogId) :
    let buf := new.logAll env ms
    received ms id = buf.undropped id + buf.chatty id +
      match buf.droppedElements id with
      | none => 0
      | some dropped => dropped.getDropped.toNat + 1 := by
  have hsum := account_logAll ms slots_new h id
  have hzero : new.account id = 0 := rfl
  rw [hzero, Nat.zero_add] at hsum
  exact hsum.symm

/-- Surroundings in which every message is loggable. -/
def allLoggable : Env where
  isLoggable := fun _ _ => true
  tagToName := fun _ => []
  behind := fun _ _ => 0

/-- A message of the main log. -/
def mainMessage (msg : List UInt8) : Message where
  logId := 0
  realtime := ⟨5, 7⟩
  uid := 1000
  pid := 40
  tid := 41
  msg := msg
  len := UInt16.ofNat msg.length

/-- Four messages, of which the last three are the same: two are handed on, and two
are held back. -/
def fourMessages : List Message :=
  [mainMessage [4, 97], mainMessage [4, 98], mainMessage [4, 98], mainMessage [4, 98]]

theorem logAll_account_fourMessages :
    let buf := new.logAll allLoggable fourMessages
    received fourMessages .main = buf.undropped .main + buf.chatty .main +
      match buf.droppedElements .main with
      | none => 0
      | some dropped => dropped.getDropped.toNat + 1 :=
  logAll_account allLoggable fourMessages
    ⟨by decide, by decide, by decide, by decide, trivial⟩ .main

end LogBuffer

end AndroidCore.Logd
