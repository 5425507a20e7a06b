import AndroidCore.Lib.LittleEndian

/-!
# `AndroidCore.Logd.LogBuffer`: duplicate squashing in `logd`

`LogBufferElement`, `identical` and `LogBuffer::log` of `logd`. `log` compares an
incoming message with the last one of its buffer. A message that differs is handed
on to `log(LogBufferElement*)`, which stores it. Identical ones are held back in two
slots for each buffer, `lastLoggedElements` and `droppedElements`, and come out
later as one chatty element with a count and the last message of the series.

The model keeps the two slots and `logged`, the elements handed on so far. The
statistics, the lock and the stored collection are not part of it. A slot that owns
an element and a slot that holds a copy are the same value here, so `delete` has no
counterpart.
-/

namespace AndroidCore.Logd

open Lib

/-! ### `LogBufferElement` -/

/-- `log_id_t`, below `LOG_ID_MAX`. -/
inductive LogId where
  | main | radio | events | system | crash | security | kernel
deriving DecidableEq, Repr

/-- The values `log` accepts: from 0 to `LOG_ID_MAX - 1`. -/
def LogId.ofInt? : Int → Option LogId
  | 0 => some .main
  | 1 => some .radio
  | 2 => some .events
  | 3 => some .system
  | 4 => some .crash
  | 5 => some .security
  | 6 => some .kernel
  | _ => none

/-- `log_time`. -/
structure LogTime where
  tvSec : UInt32
  tvNsec : UInt32
deriving DecidableEq, Repr

/-- `NS_PER_SEC`. -/
def nsPerSec : UInt64 := 1000000000

/-- `log_time::nsec`. -/
def LogTime.nsec (t : LogTime) : UInt64 := t.tvSec.toUInt64 * nsPerSec + t.tvNsec.toUInt64

/-- `LogBufferElement`. The union of `mMsgLen` and `mDroppedCount` is one field, and
`mDropped` says which of the two it is. `mMsg` is `none` for a null pointer. -/
structure LogBufferElement where
  mUid : UInt32
  mPid : UInt32
  mTid : UInt32
  mRealTime : LogTime
  mMsg : Option (List UInt8)
  msgLenOrDropped : UInt16
  mLogId : LogId
  mDropped : Bool
deriving DecidableEq, Repr

/-- `sizeof(android_event_header_t)`: the tag. -/
def eventHeaderLen : Nat := 4

/-- `sizeof(android_log_event_int_t)`. -/
def logEventIntLen : Nat := 9

/-- `sizeof(android_log_event_string_t)`. -/
def logEventStringLen : Nat := 9

/-- `LIBLOG_LOG_TAG`. -/
def liblogLogTag : UInt32 := 1006

namespace LogBufferElement

/-- The constructor from a message. -/
def new (logId : LogId) (realtime : LogTime) (uid pid tid : UInt32) (msg : List UInt8)
    (len : UInt16) : LogBufferElement where
  mUid := uid
  mPid := pid
  mTid := tid
  mRealTime := realtime
  mMsg := some (msg.take len.toNat)
  msgLenOrDropped := len
  mLogId := logId
  mDropped := false

/-- `isBinary`. -/
def isBinary (e : LogBufferElement) : Bool := e.mLogId = .events ∨ e.mLogId = .security

/-- `getDropped`. -/
def getDropped (e : LogBufferElement) : UInt16 := if e.mDropped then e.msgLenOrDropped else 0

/-- `getMsgLen`. -/
def getMsgLen (e : LogBufferElement) : UInt16 := if e.mDropped then 0 else e.msgLenOrDropped

/-- `getTag`: the first word of a binary message. -/
def getTag (e : LogBufferElement) : UInt32 :=
  match e.mMsg with
  | some msg =>
    if e.isBinary ∧ (e.mDropped ∨ eventHeaderLen ≤ e.msgLenOrDropped.toNat) then
      UInt32.ofNat (leValue (msg.take eventHeaderLen))
    else 0
  | none => 0

/-- `setDropped`: the message shrinks to its tag, or goes away. -/
def setDropped (e : LogBufferElement) (value : UInt16) : LogBufferElement :=
  { e with
    mMsg := if e.getTag ≠ 0 then e.mMsg.map (List.take eventHeaderLen) else none
    mDropped := true
    msgLenOrDropped := value }

end LogBufferElement

/-! ### `identical` -/

/-- What `log` asks its surroundings: `__android_log_is_loggable` with a priority
and the text of a tag, `tagToName`, and the memory behind a message, which
`identical` looks at when a binary message is shorter than an event header. -/
structure Env where
  isLoggable : UInt8 → List UInt8 → Bool
  tagToName : UInt32 → List UInt8
  behind : LogBufferElement → Nat → UInt8

/-- `match_type`. -/
inductive MatchType where
  | different | same | sameLiblog
deriving DecidableEq, Repr

/-- The message of an element, from its start on. -/
def LogBufferElement.msgByte (env : Env) (e : LogBufferElement) (i : Nat) : UInt8 :=
  (e.mMsg.getD []).getD i (env.behind e i)

/-- `n` bytes of a message from `start` on. -/
def LogBufferElement.msgBytes (env : Env) (e : LogBufferElement) (start n : Nat) : List UInt8 :=
  (List.range n).map fun i => e.msgByte env (start + i)

/-- `"): avc: "`. -/
def avc : List UInt8 := [0x29, 0x3a, 0x20, 0x61, 0x76, 0x63, 0x3a, 0x20]

/-- `strnstr` for `avc`, in the `len` bytes of a message from `pos` on: the position
where it was found. -/
def strnstrAvc (env : Env) (e : LogBufferElement) : Nat → Nat → Option Nat
  | _, 0 => none
  | pos, len + 1 =>
    if len + 1 < avc.length then none
    else if e.msgBytes env pos avc.length = avc then some pos
    else strnstrAvc env e (pos + 1) len

/-- The last part of `identical`: the messages from `start` on agree behind `avc`. -/
def identicalAvc (env : Env) (elem last : LogBufferElement) (start : Nat) : MatchType :=
  let lenl := elem.getMsgLen.toNat - start
  let lenr := last.getMsgLen.toNat - start
  match strnstrAvc env elem start lenl with
  | none => .different
  | some avcl =>
    let lenl := lenl - (avcl - start)
    match strnstrAvc env last start lenr with
    | none => .different
    | some avcr =>
      let lenr := lenr - (avcr - start)
      if lenl ≠ lenr then .different
      else if elem.msgBytes env (avcl + avc.length) (lenl - avc.length)
          ≠ last.msgBytes env (avcr + avc.length) (lenl - avc.length) then .different
      else .same

/-- `identical`. -/
def identical (env : Env) (elem last : LogBufferElement) : MatchType :=
  let lenl := elem.getMsgLen.toNat
  let lenr := last.getMsgLen.toNat
  if lenl = 0 ∨ lenr = 0 then .different -- value if this represents a chatty elem
  else if elem.mUid ≠ last.mUid ∨ elem.mPid ≠ last.mPid ∨ elem.mTid ≠ last.mTid then .different
  -- last is more than a minute old, stop squashing identical messages
  else if last.mRealTime.nsec + 60 * nsPerSec < elem.mRealTime.nsec then .different
  else if lenl = lenr ∧ elem.msgBytes env 0 lenl = last.msgBytes env 0 lenl then .same
  -- liblog tagged messages (content gets summed)
  else if lenl = lenr ∧ elem.mLogId = .events ∧ lenl = logEventIntLen ∧
      elem.msgBytes env 0 (logEventIntLen - 4) = last.msgBytes env 0 (logEventIntLen - 4) ∧
      elem.getTag = liblogLogTag then .sameLiblog
  -- audit message (except sequence number) identical?
  else if last.isBinary then
    if elem.msgBytes env 0 (logEventStringLen - 4) ≠ last.msgBytes env 0 (logEventStringLen - 4)
    then .different
    else identicalAvc env elem last logEventStringLen
  else identicalAvc env elem last 0

/-! ### `LogBuffer` -/

/-- `LogBuffer`: the two slots of each log, and the elements handed on to
`log(LogBufferElement*)`. -/
structure LogBuffer where
  lastLoggedElements : LogId → Option LogBufferElement
  droppedElements : LogId → Option LogBufferElement
  logged : List LogBufferElement

namespace LogBuffer

/-- The constructor. -/
def new : LogBuffer where
  lastLoggedElements := fun _ => none
  droppedElements := fun _ => none
  logged := []

/-- A slot of `id` is set. -/
def setSlot (slots : LogId → Option LogBufferElement) (id : LogId)
    (e : Option LogBufferElement) : LogId → Option LogBufferElement :=
  fun i => if i = id then e else slots i

/-- `log(LogBufferElement*)`: the element is handed on. -/
def logElement (buf : LogBuffer) (e : LogBufferElement) : LogBuffer :=
  { buf with logged := buf.logged ++ [e] }

/-- `payload.data` of an event with a single integer. -/
def eventData (e : LogBufferElement) : Nat := leValue (((e.mMsg.getD []).drop 5).take 4)

/-- The event `e` with another `payload.data`. -/
def setEventData (e : LogBufferElement) (data : UInt32) : LogBufferElement :=
  { e with mMsg := e.mMsg.map fun msg => msg.take 5 ++ leBytes 4 data.toNat ++ msg.drop 9 }

/-- The liblog branch: the incoming event takes the sum of the two, unless the sum
overflows. -/
def sumLiblog (buf : LogBuffer) (elem currentLast : LogBufferElement) : LogBuffer :=
  let total := eventData currentLast + eventData elem
  if 2 ^ 32 - 1 ≤ total then
    { buf with lastLoggedElements := setSlot buf.lastLoggedElements .events (some elem) }
      |>.logElement currentLast
  else
    { buf with
      lastLoggedElements := setSlot buf.lastLoggedElements .events
        (some (setEventData elem (UInt32.ofNat total))) }

/-- `elem` is held back: `currentLast` moves on to `droppedElements`, as a chatty
element when `count` is not 0. -/
def holdBack (buf : LogBuffer) (id : LogId) (elem currentLast : LogBufferElement)
    (count : UInt16) : LogBuffer :=
  let currentLast := if count ≠ 0 then currentLast.setDropped count else currentLast
  { buf with
    droppedElements := setSlot buf.droppedElements id (some currentLast)
    lastLoggedElements := setSlot buf.lastLoggedElements id (some elem) }

/-- A message like the last one. -/
def logSame (buf : LogBuffer) (id : LogId) (elem currentLast : LogBufferElement)
    (m : MatchType) : LogBuffer :=
  match buf.droppedElements id with
  | none => buf.holdBack id elem currentLast 0
  | some dropped =>
    let count := dropped.getDropped
    if count = 0 ∧ m = .sameLiblog then -- at Pass 1
      buf.sumLiblog elem currentLast
    else if count = 65535 then
      (buf.logElement dropped).holdBack id elem currentLast 1
    else
      buf.holdBack id elem currentLast (count + 1)

/-- The end of a series: the elements held back are handed on. -/
def flush (buf : LogBuffer) (id : LogId) (currentLast : LogBufferElement) : LogBuffer :=
  match buf.droppedElements id with
  | none => buf
  | some dropped =>
    let buf := if dropped.getDropped ≠ 0 then buf.logElement dropped else buf
    { buf with droppedElements := setSlot buf.droppedElements id none }.logElement currentLast

/-- A message that is not like the last one. -/
def logNew (buf : LogBuffer) (id : LogId) (elem : LogBufferElement) : LogBuffer :=
  { buf with lastLoggedElements := setSlot buf.lastLoggedElements id (some elem) }.logElement elem

/-- The state machine of `log`, on a loggable element. -/
def squash (env : Env) (buf : LogBuffer) (id : LogId) (elem : LogBufferElement) : LogBuffer :=
  match buf.lastLoggedElements id with
  | none => buf.logNew id elem
  | some currentLast =>
    let m := identical env elem currentLast
    if m ≠ .different then buf.logSame id elem currentLast m
    else (buf.flush id currentLast).logNew id elem

end LogBuffer

/-- The arguments of a call of `log`. -/
structure Message where
  logId : Int
  realtime : LogTime
  uid : UInt32
  pid : UInt32
  tid : UInt32
  msg : List UInt8
  len : UInt16

namespace Message

/-- Slip the time by 1 nsec if the incoming lands on xxxxxx000 ns. -/
def slipTime (t : LogTime) : LogTime :=
  if t.tvNsec % 1000 = 0 then { t with tvNsec := t.tvNsec + 1 } else t

/-- The element made of the message, in the log `id`. -/
def elem (m : Message) (id : LogId) : LogBufferElement :=
  .new id (slipTime m.realtime) m.uid m.pid m.tid m.msg m.len

/-- `ANDROID_LOG_INFO`. -/
def androidLogInfo : UInt8 := 4

/-- The message passes the check for its priority and its tag. -/
def loggable (env : Env) (m : Message) (id : LogId) : Bool :=
  match id with
  | .security => true
  | .events => env.isLoggable androidLogInfo (env.tagToName (m.elem id).getTag)
  | _ => env.isLoggable (m.msg.getD 0 0) (m.msg.drop 1)

end Message

/-- `-EINVAL`. -/
def eInval : Int := -22

/-- `-EACCES`. -/
def eAcces : Int := -13

/-- `LogBuffer::log`. -/
def LogBuffer.log (env : Env) (buf : LogBuffer) (m : Message) : Int × LogBuffer :=
  match LogId.ofInt? m.logId with
  | none => (eInval, buf)
  | some id =>
    if m.loggable env id = false then (eAcces, buf)
    else (m.len.toNat, buf.squash env id (m.elem id))

/-- The buffer after a sequence of calls. -/
def LogBuffer.logAll (env : Env) (buf : LogBuffer) (ms : List Message) : LogBuffer :=
  ms.foldl (fun buf m => (buf.log env m).2) buf

end AndroidCore.Logd
