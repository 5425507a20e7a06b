import AndroidCore.Lib.LittleEndian

/-!
# `AndroidCore.Liblog.LogEventList`: writing and reading event lists

`log_event_list.c`. A writer context holds the message under construction: the position
in its storage, and for each nesting depth the number of elements and the place of the
byte for it. A reader context counts the elements of the lists it is in down again, and
answers each call with one element.

The storage is a map from positions to bytes, which is zero where nothing was written.
The calls fail by a negative return value, and leave their traces in the context when
they do: each one is a function to the return value and the new context.
-/

namespace AndroidCore.Liblog

open Lib

/-- `ANDROID_MAX_LIST_NEST_DEPTH`. -/
def maxListNestDepth : Nat := 8

/-- `MAX_EVENT_PAYLOAD`: `LOGGER_ENTRY_MAX_PAYLOAD` less the size of the tag. -/
def maxEventPayload : Nat := 4068 - 4

/-! ### Element types -/

/-- `EVENT_TYPE_INT`. -/
def eventTypeInt : UInt8 := 0
/-- `EVENT_TYPE_LONG`. -/
def eventTypeLong : UInt8 := 1
/-- `EVENT_TYPE_STRING`. -/
def eventTypeString : UInt8 := 2
/-- `EVENT_TYPE_LIST`. -/
def eventTypeList : UInt8 := 3
/-- `EVENT_TYPE_FLOAT`. -/
def eventTypeFloat : UInt8 := 4
/-- `EVENT_TYPE_LIST_STOP`. -/
def eventTypeListStop : UInt8 := 10

/-! ### The storage -/

/-- The `storage` of a context. -/
abbrev Storage := Nat → UInt8

/-- Some bytes of the storage. -/
def slice (storage : Storage) (pos len : Nat) : List UInt8 :=
  (List.range len).map fun i => storage (pos + i)

/-- The storage with some bytes written to a position. -/
def store (storage : Storage) (pos : Nat) (bytes : List UInt8) : Storage :=
  fun i => if pos ≤ i ∧ i < pos + bytes.length then bytes.getD (i - pos) 0 else storage i

/-! ### The writer -/

/-- The negative return values. -/
inductive Errno where
  | io
  | overflow
deriving DecidableEq, Repr

/-- `android_log_context_internal`, in a writer. -/
structure Writer where
  pos : Nat
  count : Nat → Nat
  list : Nat → Nat
  listNestDepth : Nat
  overflow : Bool
  storage : Storage

/-- `create_android_logger`. -/
def createAndroidLogger : Writer where
  pos := 2
  count _ := 0
  -- Everything is a list.
  list depth := if depth = 0 then 1 else 0
  listNestDepth := 0
  overflow := false
  storage := store (fun _ => 0) 0 [eventTypeList]

namespace Writer

/-- `context->overflow = true`. -/
def setOverflow (c : Writer) : Writer := { c with overflow := true }

/-- `context->count[context->list_nest_depth]++`. -/
def countElement (c : Writer) : Writer :=
  { c with count := fun d => if d = c.listNestDepth then c.count d + 1 else c.count d }

/-- An element with a fixed size: its type and its bytes. `android_log_write_int32`,
`android_log_write_int64` and `android_log_write_float32` differ in these only. -/
def writeFixed (c : Writer) (type : UInt8) (bytes : List UInt8) : Except Errno Nat × Writer :=
  if c.overflow then (.error .io, c)
  else
    let needed := 1 + bytes.length
    if c.pos + needed > maxEventPayload then (.error .io, c.setOverflow)
    else
      let c := c.countElement
      (.ok 0, { c with storage := store c.storage c.pos (type :: bytes), pos := c.pos + needed })

/-- `android_log_write_int32`. -/
def writeInt32 (c : Writer) (value : UInt32) : Except Errno Nat × Writer :=
  c.writeFixed eventTypeInt (leBytes 4 value.toNat)

/-- `android_log_write_int64`. -/
def writeInt64 (c : Writer) (value : UInt64) : Except Errno Nat × Writer :=
  c.writeFixed eventTypeLong (leBytes 8 value.toNat)

/-- `android_log_write_float32`, with the bits of the value. -/
def writeFloat32 (c : Writer) (bits : UInt32) : Except Errno Nat × Writer :=
  c.writeFixed eventTypeFloat (leBytes 4 bits.toNat)

/-- `strnlen`. -/
def strnlen (value : List UInt8) (maxlen : Nat) : Nat :=
  ((value.take maxlen).takeWhile (· ≠ 0)).length

/-- `android_log_write_string8_len`, with the bytes that `value` points to. -/
def writeString8Len (c : Writer) (value : List UInt8) (maxlen : Nat) : Except Errno Nat × Writer :=
  if c.overflow then (.error .io, c)
  else
    let len := strnlen value maxlen
    let needed := 1 + 4 + len
    -- Truncate string for delivery.
    let truncates := c.pos + needed > maxEventPayload
    if truncates ∧ maxEventPayload ≤ c.pos + 1 + 4 then (.error .io, c.setOverflow)
    else
      let len := if truncates then maxEventPayload - c.pos - 1 - 4 else len
      let c := c.countElement
      let bytes := eventTypeString :: leBytes 4 len ++ value.take len
      -- The position goes on by what was needed, truncated or not, and is an `unsigned`.
      (.ok len,
        { c with storage := store c.storage c.pos bytes, pos := (c.pos + needed) % 2 ^ 32 })

/-- `android_log_write_list_begin`. -/
def writeListBegin (c : Writer) : Except Errno Nat × Writer :=
  if c.listNestDepth > maxListNestDepth then (.error .overflow, c.setOverflow)
  else
    let needed := 2
    if c.pos + needed > maxEventPayload then (.error .io, c.setOverflow)
    else
      let c := { c.countElement with listNestDepth := c.listNestDepth + 1 }
      if c.listNestDepth > maxListNestDepth then (.error .overflow, c.setOverflow)
      else if c.overflow then (.error .io, c)
      else
        (.ok 0,
          { c with
            storage := store c.storage c.pos [eventTypeList, 0]
            list := fun d => if d = c.listNestDepth then c.pos + 1 else c.list d
            count := fun d => if d = c.listNestDepth then 0 else c.count d
            pos := c.pos + needed })

/-- `android_log_write_list_end`. -/
def writeListEnd (c : Writer) : Except Errno Nat × Writer :=
  if c.listNestDepth > maxListNestDepth then
    (.error .overflow, { c.setOverflow with listNestDepth := c.listNestDepth - 1 })
  else if c.listNestDepth = 0 then (.error .overflow, c.setOverflow)
  else if c.list c.listNestDepth ≤ 0 then
    (.error .overflow, { c.setOverflow with listNestDepth := c.listNestDepth - 1 })
  else
    (.ok 0,
      { c with
        storage := store c.storage (c.list c.listNestDepth)
          [UInt8.ofNat (c.count c.listNestDepth)]
        listNestDepth := c.listNestDepth - 1 })

end Writer

/-- A call of the writer. -/
inductive WriteCall where
  | int32 (value : UInt32)
  | int64 (value : UInt64)
  | float32 (bits : UInt32)
  | string8Len (value : List UInt8) (maxlen : Nat)
  | listBegin
  | listEnd
deriving DecidableEq, Repr

/-- One call. -/
def Writer.write (c : Writer) : WriteCall → Except Errno Nat × Writer
  | .int32 value => c.writeInt32 value
  | .int64 value => c.writeInt64 value
  | .float32 bits => c.writeFloat32 bits
  | .string8Len value maxlen => c.writeString8Len value maxlen
  | .listBegin => c.writeListBegin
  | .listEnd => c.writeListEnd

/-- The context after some calls, whatever they return. -/
def Writer.writeAll (c : Writer) (calls : List WriteCall) : Writer :=
  calls.foldl (fun c call => (c.write call).2) c

/-- `android_log_write_list_buffer`: the message, if all lists are closed. -/
def Writer.writeListBuffer (c : Writer) : Except Errno (List UInt8) :=
  if c.listNestDepth ≠ 0 then .error .io
  else
    let storage := store c.storage 1 [UInt8.ofNat (c.count 0)]
    -- It's not a list.
    if c.count 0 ≤ 1 then .ok (slice storage 2 (c.pos - 2))
    else .ok (slice storage 0 c.pos)

/-! ### The reader -/

/-- The elements that `android_log_read_next` returns, by their type. -/
inductive Element where
  | int32 (value : UInt32)
  | int64 (value : UInt64)
  | float32 (bits : UInt32)
  | string (value : List UInt8)
  | list
  | listStop
  | unknown
deriving DecidableEq, Repr

/-- `android_log_context_internal`, in a reader. -/
structure Reader where
  pos : Nat
  len : Nat
  count : Nat → Nat
  listNestDepth : Nat
  listStop : Bool
  storage : Storage

/-- `create_android_log_parser`. -/
def createAndroidLogParser (msg : List UInt8) : Reader where
  pos := 0
  len := min msg.length maxEventPayload
  count _ := 0
  listNestDepth := 0
  listStop := false
  storage := store (fun _ => 0) 0 (msg.take maxEventPayload)

namespace Reader

/-- The common suffix of the elements that are a value: count it down, and go on behind
it. -/
def finishValue (c : Reader) (pos : Nat) : Reader :=
  let n := c.count c.listNestDepth
  { c with
    listStop := if n = 0 ∨ n = 1 then true else c.listStop
    count := fun d => if d = c.listNestDepth then n - 1 else c.count d
    pos := pos }

/-- The element is the last one of a message that is not a list. -/
def valueComplete (c : Reader) : Bool := c.listNestDepth = 0 ∧ c.count 0 = 0

/-- An element of a fixed size, whose type byte is before `pos`. -/
def readFixed (c : Reader) (pos len : Nat) (element : Nat → Element) : Element × Bool × Reader :=
  if pos + len > c.len then (.unknown, false, c)
  else (element (leValue (slice c.storage pos len)), c.valueComplete, c.finishValue (pos + len))

/-- A string, whose type byte is before `pos`. -/
def readString (c : Reader) (pos : Nat) : Element × Bool × Reader :=
  if pos + 4 > c.len then (.unknown, true, c)
  else
    -- The length is kept in a `uint16_t`.
    let len := leValue (slice c.storage pos 4) % 2 ^ 16
    let pos := pos + 4
    -- Truncate string.
    let len' := if pos + len > c.len then c.len - pos else len
    if pos + len > c.len ∧ len' = 0 then (.unknown, true, c)
    else (.string (slice c.storage pos len'), c.valueComplete, c.finishValue (pos + len'))

/-- The start of a list, whose type byte is before `pos`. -/
def readList (c : Reader) (pos : Nat) : Element × Bool × Reader :=
  if pos + 1 > c.len then (.unknown, true, c)
  else
    let n := (c.storage pos).toNat
    (.list, c.listNestDepth ≥ maxListNestDepth,
      { c with
        listStop := n = 0
        listNestDepth := c.listNestDepth + 1
        count := fun d =>
          if d = c.listNestDepth then c.count d - 1
          else if d = c.listNestDepth + 1 ∧ d ≤ maxListNestDepth then n
          else c.count d
        pos := pos + 1 })

/-- The end of a list whose elements have all been read. -/
def readListStop (c : Reader) : Element × Bool × Reader :=
  let complete := c.count 0 = 0 ∧
    (c.listNestDepth = 0 ∨ c.listNestDepth = 1 ∧ c.count 1 = 0)
  -- Suck in superfluous stop.
  let c := if c.storage c.pos = eventTypeListStop then { c with pos := c.pos + 1 } else c
  let c :=
    if c.listNestDepth ≠ 0 then
      { c with
        listNestDepth := c.listNestDepth - 1
        listStop := if c.count (c.listNestDepth - 1) ≠ 0 then false else c.listStop }
    else { c with listStop := false }
  (.listStop, complete, c)

/-- The reader has left the lists it can count. -/
def exhausted (c : Reader) : Bool :=
  c.listNestDepth > maxListNestDepth ∨ c.count c.listNestDepth ≥ maxEventPayload / 2

/-- `android_log_read_next`: the element, its `complete` flag, and the context. -/
def readNext (c : Reader) : Element × Bool × Reader :=
  if c.exhausted then
    -- Nothing to parse from this context, so return complete.
    if c.listStop ∨ c.listNestDepth ≤ maxListNestDepth ∧ c.count c.listNestDepth = 0 then
      (.listStop, true, c)
    else (.unknown, true, c)
  else if c.listStop then c.readListStop
  else if c.pos + 1 > c.len then (.unknown, true, c)
  else
    let type := c.storage c.pos
    let pos := c.pos + 1
    if type = eventTypeFloat then c.readFixed pos 4 fun v => .float32 (UInt32.ofNat v)
    else if type = eventTypeInt then c.readFixed pos 4 fun v => .int32 (UInt32.ofNat v)
    else if type = eventTypeLong then c.readFixed pos 8 fun v => .int64 (UInt64.ofNat v)
    else if type = eventTypeString then c.readString pos
    else if type = eventTypeList then c.readList pos
    else if type = eventTypeListStop then
      -- Surprise newline terminates lists.
      if c.listNestDepth > 0 then
        (.listStop, false, { c with pos := pos, listNestDepth := c.listNestDepth - 1 })
      else (.unknown, true, { c with pos := pos })
    else (.unknown, false, c)

/-- The elements up to and including the first complete one; `none` if there is none
among the first `fuel`. -/
def readAll : Nat → Reader → Option (List Element)
  | 0, _ => none
  | fuel + 1, c =>
    match c.readNext with
    | (element, true, _) => some [element]
    | (element, false, c) => (readAll fuel c).map (element :: ·)

end Reader

end AndroidCore.Liblog
