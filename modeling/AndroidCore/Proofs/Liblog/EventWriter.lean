import AndroidCore.Liblog.LogEventList
import Mathlib.Data.List.Basic

/-!
# `AndroidCore.Proofs.Liblog.EventWriter`: what the writer puts into the storage

`Encodes n h bytes elements` says that some bytes are an encoding of `n` elements whose
lists are nested `h` deep, and what a reader is to return for them. The writer is related
to it by an invariant: `Holds c frames`, where the frames are the lists that are open,
the innermost first, with what has been written to each of them.

A call is `Sound` if it is not one of those that leave a wrong count or position behind: a
list that is begun after an overflow although there is room, or at the greatest depth, and
a string that is truncated. Every sound call keeps the invariant (`Holds.write`), whether
it succeeds or not.
-/

namespace AndroidCore.Liblog

open Lib List Writer

/-! ### Storage -/

@[simp] theorem length_slice (storage : Storage) (pos len : Nat) :
    (slice storage pos len).length = len := by
  simp [slice]

variable {pos len : Nat}

theorem getElem?_slice (storage : Storage) {i : Nat} (hi : i < len) :
    (slice storage pos len)[i]? = some (storage (pos + i)) := by
  simp [slice, hi]

/-- Two pieces of the storage next to each other. -/
theorem slice_append (storage : Storage) (pos a b : Nat) :
    slice storage pos (a + b) = slice storage pos a ++ slice storage (pos + a) b := by
  unfold slice
  rw [range_add, map_append]
  simp [Nat.add_assoc]

variable {storage : Storage}

theorem slice_congr {storage' : Storage} (h : ∀ i, i < len → storage (pos + i) = storage' (pos + i))
    : slice storage pos len = slice storage' pos len :=
  map_congr_left fun i hi => h i (mem_range.mp hi)

/-- What was stored can be read back. -/
theorem slice_store_self (storage : Storage) (pos : Nat) (bytes : List UInt8) :
    slice (store storage pos bytes) pos bytes.length = bytes := by
  apply ext_getElem?
  intro i
  by_cases hi : i < bytes.length
  · rw [getElem?_slice _ hi]
    simp [store, hi]
  · rw [getElem?_eq_none (by simpa using hi), getElem?_eq_none (by simpa using hi)]

/-- Bytes stored behind a piece do not change it. -/
theorem slice_store_of_le (storage : Storage) {at' : Nat} (bytes : List UInt8)
    (h : pos + len ≤ at') :
    slice (store storage at' bytes) pos len = slice storage pos len := by
  refine slice_congr fun i hi => ?_
  unfold store
  rw [if_neg (by omega)]

/-- Bytes stored before a piece do not change it. -/
theorem slice_store_of_ge (storage : Storage) {at' : Nat} (bytes : List UInt8)
    (h : at' + bytes.length ≤ pos) :
    slice (store storage at' bytes) pos len = slice storage pos len := by
  refine slice_congr fun i hi => ?_
  unfold store
  rw [if_neg (by omega)]

/-- Bytes stored at the end of the message. -/
theorem slice_store_append {bs : List UInt8} (h : slice storage 0 pos = bs) (bytes : List UInt8) :
    slice (store storage pos bytes) 0 (pos + bytes.length) = bs ++ bytes := by
  rw [slice_append, slice_store_of_le _ _ (by omega), h, Nat.zero_add, slice_store_self]

/-- One byte of the message replaced. -/
theorem slice_store_patch {a b : List UInt8} {x : UInt8}
    (h : slice storage 0 (a.length + 1 + b.length) = a ++ x :: b) (y : UInt8) :
    slice (store storage a.length [y]) 0 (a.length + 1 + b.length) = a ++ y :: b := by
  have hfront : slice (store storage a.length [y]) 0 a.length = slice storage 0 a.length :=
    slice_store_of_le _ _ (by omega)
  have hback : slice (store storage a.length [y]) (a.length + 1) b.length
      = slice storage (a.length + 1) b.length := slice_store_of_ge _ _ le_rfl
  have hbyte : slice (store storage a.length [y]) a.length 1 = [y] :=
    slice_store_self storage a.length [y]
  rw [slice_append, slice_append, Nat.zero_add, Nat.zero_add] at h ⊢
  rw [append_assoc] at h
  obtain ⟨ha, hrest⟩ := append_inj h (by simp)
  have hrest : slice storage a.length 1 ++ slice storage (a.length + 1) b.length = [x] ++ b :=
    hrest
  have hb := (append_inj hrest (by simp)).2
  rw [hfront, hback, hbyte, ha, hb]
  simp

/-! ### Encodings -/

/-- An element that is not a list. -/
inductive Value where
  | int32 (value : UInt32)
  | int64 (value : UInt64)
  | float32 (bits : UInt32)
  | string (value : List UInt8)

namespace Value

/-- The bytes of the element. -/
def bytes : Value → List UInt8
  | .int32 value => eventTypeInt :: leBytes 4 value.toNat
  | .int64 value => eventTypeLong :: leBytes 8 value.toNat
  | .float32 bits => eventTypeFloat :: leBytes 4 bits.toNat
  | .string value => eventTypeString :: leBytes 4 value.length ++ value

/-- The element as it is read. -/
def element : Value → Element
  | .int32 value => .int32 value
  | .int64 value => .int64 value
  | .float32 bits => .float32 bits
  | .string value => .string value

end Value

/-- The bytes are an encoding of `n` elements, with lists nested `h` deep, and the reader
is to return `elements` for them. No list has more than 255 elements. -/
inductive Encodes : (n h : Nat) → (bytes : List UInt8) → (elements : List Element) → Prop
  | nil : Encodes 0 0 [] []
  | value {n h : Nat} {bs : List UInt8} {es : List Element} (hinit : Encodes n h bs es)
      (v : Value) (hsize : v.bytes.length ≤ maxEventPayload) :
      Encodes (n + 1) h (bs ++ v.bytes) (es ++ [v.element])
  | list {n h : Nat} {bs : List UInt8} {es : List Element} (hinit : Encodes n h bs es)
      {k h' : Nat} {bs' : List UInt8} {es' : List Element} (hinner : Encodes k h' bs' es')
      (hk : k ≤ 255) :
      Encodes (n + 1) (max h (h' + 1)) (bs ++ (eventTypeList :: UInt8.ofNat k :: bs'))
        (es ++ (.list :: es' ++ [.listStop]))

/-! ### Open lists -/

/-- What has been written to a list so far. -/
structure Frame where
  n : Nat
  height : Nat
  bytes : List UInt8
  elements : List Element

namespace Frame

/-- A list with nothing in it. -/
def empty : Frame := ⟨0, 0, [], []⟩

/-- A value at the end of a list. -/
def push (f : Frame) (v : Value) : Frame :=
  ⟨f.n + 1, f.height, f.bytes ++ v.bytes, f.elements ++ [v.element]⟩

/-- A list at the end of a list. -/
def close (g f : Frame) : Frame :=
  ⟨g.n + 1, max g.height (f.height + 1), g.bytes ++ (eventTypeList :: UInt8.ofNat f.n :: f.bytes),
    g.elements ++ (.list :: f.elements ++ [.listStop])⟩

/-- The bytes of the open lists; the byte for the number of elements is zero. -/
def allBytes : List Frame → List UInt8
  | [] => []
  | f :: rest => allBytes rest ++ (eventTypeList :: 0 :: f.bytes)

/-- The elements of the open lists, in the order they were written. The outermost list has
no start of its own. -/
def allElements : List Frame → List Element
  | [] => []
  | [f] => f.elements
  | f :: rest => allElements rest ++ (.list :: f.elements)

/-- How deep the lists are nested, open ones and closed ones. -/
def reach : List Frame → Nat
  | [] => 0
  | f :: rest => max (rest.length + f.height) (reach rest)

theorem allElements_cons (f g : Frame) (rest : List Frame) :
    allElements (f :: g :: rest) = allElements (g :: rest) ++ (.list :: f.elements) := rfl

/-- An element at the end of the innermost list. -/
theorem allElements_append {f f' : Frame} {es : List Element}
    (h : f'.elements = f.elements ++ es) (rest : List Frame) :
    allElements (f' :: rest) = allElements (f :: rest) ++ es := by
  cases rest with
  | nil => exact h
  | cons g rest => simp [allElements_cons, h]

end Frame

open Liblog.Frame (allBytes reach allElements)

/-- The counters and positions of the open lists. `extra` is one for a list that contains
an open list: that one is counted when it is begun. -/
def Matches (c : Writer) : Nat → List Frame → Prop
  | _, [] => True
  | extra, f :: rest =>
    c.count rest.length = f.n + extra ∧
      c.list rest.length = (allBytes rest).length + 1 ∧
      Encodes f.n f.height f.bytes f.elements ∧ Matches c 1 rest

/-- The invariant of the writer. -/
structure Holds (c : Writer) (frames : List Frame) : Prop where
  depth : c.listNestDepth + 1 = frames.length
  pos : c.pos = (allBytes frames).length
  fits : c.pos ≤ maxEventPayload
  shallow : c.listNestDepth ≤ maxListNestDepth
  bytes : slice c.storage 0 c.pos = allBytes frames
  frames : Matches c 0 frames

variable {c : Writer} {frames : List Frame}

/-- The counters of the outer lists are all that the outer frames depend on. -/
theorem Matches.congr {c' : Writer} {extra : Nat} (h : Matches c extra frames)
    (hcount : ∀ d < frames.length, c'.count d = c.count d)
    (hlist : ∀ d < frames.length, c'.list d = c.list d) : Matches c' extra frames := by
  induction frames generalizing extra with
  | nil => trivial
  | cons f rest ih =>
    obtain ⟨hn, hl, henc, hrest⟩ := h
    have hlt : rest.length < (f :: rest).length := Nat.lt_succ_self _
    exact ⟨(hcount _ hlt).trans hn, (hlist _ hlt).trans hl, henc,
      ih hrest (fun d hd => hcount d (Nat.lt_succ_of_lt hd))
        fun d hd => hlist d (Nat.lt_succ_of_lt hd)⟩

theorem holds_createAndroidLogger : Holds createAndroidLogger [Frame.empty] where
  depth := rfl
  pos := rfl
  fits := by decide
  shallow := by decide
  bytes := rfl
  frames := ⟨rfl, rfl, .nil, trivial⟩

/-- An overflow changes nothing the invariant is about. -/
theorem Holds.setOverflow (h : Holds c frames) : Holds c.setOverflow frames :=
  ⟨h.depth, h.pos, h.fits, h.shallow, h.bytes, h.frames.congr (fun _ _ => rfl) fun _ _ => rfl⟩

/-! ### The calls -/

/-- The writer after an element has been written at its position. -/
def Writer.append (c : Writer) (bytes : List UInt8) : Writer :=
  { c.countElement with
    storage := store c.storage c.pos bytes
    pos := c.pos + bytes.length }

variable {rest : List Frame} {f : Frame}

/-- A value that fits is one more element of the innermost list. -/
theorem Holds.append (h : Holds c (f :: rest)) (v : Value)
    (hfits : c.pos + v.bytes.length ≤ maxEventPayload) :
    Holds (c.append v.bytes) (f.push v :: rest) := by
  have hdepth : c.listNestDepth = rest.length := by simpa using h.depth
  obtain ⟨hn, hl, henc, hrest⟩ := h.frames
  refine ⟨h.depth, ?_, hfits, h.shallow, ?_, ?_, hl, ?_, ?_⟩
  · change c.pos + v.bytes.length = _
    rw [h.pos]
    simp [allBytes, Frame.push]
    omega
  · change slice (store c.storage c.pos v.bytes) 0 (c.pos + v.bytes.length) = _
    rw [slice_store_append h.bytes]
    simp [allBytes, Frame.push]
  · change (if rest.length = c.listNestDepth then _ else _) = _
    rw [if_pos hdepth.symm, hn]
    rfl
  · exact .value henc v (by omega)
  · refine hrest.congr (fun d hd => ?_) fun _ _ => rfl
    change (if d = c.listNestDepth then _ else _) = _
    rw [if_neg (by omega)]

/-- The value a call writes. -/
def WriteCall.value : WriteCall → Option Value
  | .int32 value => some (.int32 value)
  | .int64 value => some (.int64 value)
  | .float32 bits => some (.float32 bits)
  | .string8Len value maxlen => some (.string (value.take (strnlen value maxlen)))
  | .listBegin => none
  | .listEnd => none

/-- The element that is to be read for a call. -/
def WriteCall.element : WriteCall → Element
  | .int32 value => .int32 value
  | .int64 value => .int64 value
  | .float32 bits => .float32 bits
  | .string8Len value maxlen => .string (value.take (strnlen value maxlen))
  | .listBegin => .list
  | .listEnd => .listStop

variable {call : WriteCall}

theorem WriteCall.element_of_value {v : Value} (h : call.value = some v) :
    call.element = v.element := by
  cases call <;> cases h <;> rfl

/-- The calls that leave no wrong count or position behind. A list is begun at a depth
below the greatest and without an overflow, or there is no room for it; and a string is
not truncated. -/
def Sound (c : Writer) : WriteCall → Prop
  | .listBegin =>
    c.pos + 2 ≤ maxEventPayload → c.overflow = false ∧ c.listNestDepth < maxListNestDepth
  | .string8Len value maxlen =>
    c.overflow = false → c.pos + (1 + 4 + strnlen value maxlen) ≤ maxEventPayload ∨
      maxEventPayload ≤ c.pos + 1 + 4
  | _ => True

theorem strnlen_le (value : List UInt8) (maxlen : Nat) : strnlen value maxlen ≤ value.length := by
  calc ((value.take maxlen).takeWhile (· ≠ 0)).length
      ≤ (value.take maxlen).length := (takeWhile_sublist _).length_le
    _ ≤ value.length := by simp

/-- The context with another storage. -/
def Writer.on (c : Writer) (storage : Storage) : Writer := { c with storage := storage }

/-- What a call does that writes some bytes, whatever the storage holds: nothing but the
overflow flag changes, or the bytes are written. -/
def Puts (c : Writer) (call : WriteCall) (bytes : List UInt8) : Prop :=
  (∃ (e : Errno) (c₁ : Writer), (c₁ = c ∨ c₁ = c.setOverflow) ∧
      ∀ s, (c.on s).write call = (.error e, c₁.on s)) ∨
    (c.pos + bytes.length ≤ maxEventPayload ∧
      ∃ r, ∀ s, (c.on s).write call = (.ok r, (c.on s).append bytes))

/-- The elements of a fixed size. -/
theorem puts_fixed {type : UInt8} {bytes : List UInt8}
    (h : ∀ s, (c.on s).write call = (c.on s).writeFixed type bytes) :
    Puts c call (type :: bytes) := by
  by_cases hover : c.overflow = true
  · exact .inl ⟨.io, c, .inl rfl, fun s => (h s).trans (if_pos hover)⟩
  by_cases hroom : c.pos + (1 + bytes.length) > maxEventPayload
  · exact .inl ⟨.io, _, .inr rfl, fun s => (h s).trans ((if_neg hover).trans (if_pos hroom))⟩
  · refine .inr ⟨by rw [length_cons]; omega, 0, fun s => ?_⟩
    rw [h s, append, length_cons, Nat.add_comm bytes.length]
    exact (if_neg hover).trans (if_neg hroom)

theorem puts_string {value : List UInt8} {maxlen : Nat}
    (hsound : Sound c (.string8Len value maxlen)) :
    Puts c (.string8Len value maxlen) (Value.string (value.take (strnlen value maxlen))).bytes := by
  have hbytes : (Value.string (value.take (strnlen value maxlen))).bytes.length
      = 1 + 4 + strnlen value maxlen := by
    have hlen := strnlen_le value maxlen
    simp [Value.bytes]
    omega
  by_cases hover : c.overflow = true
  · exact .inl ⟨.io, c, .inl rfl, fun s => if_pos hover⟩
  by_cases hfit : c.pos + (1 + 4 + strnlen value maxlen) > maxEventPayload
  · have hroom := (hsound (by simpa using hover)).resolve_left (by omega)
    exact .inl ⟨.io, _, .inr rfl, fun s => (if_neg hover).trans (if_pos ⟨hfit, hroom⟩)⟩
  · have hpay : maxEventPayload = 4064 := rfl
    refine .inr ⟨by omega, strnlen value maxlen, fun s => (if_neg hover).trans
      ((if_neg fun hand => hfit hand.1).trans ?_)⟩
    have hmod : (c.on s).pos + (1 + 4 + strnlen value maxlen) < 2 ^ 32 := by
      change c.pos + _ < _
      omega
    rw [if_neg (show ¬ (c.on s).pos + _ > _ from hfit), append, hbytes, ← Nat.mod_eq_of_lt hmod]
    simp only [Value.bytes, length_take, Nat.min_eq_left (strnlen_le value maxlen)]
    rfl

/-- What a sound call that writes a value does. -/
theorem write_value {v : Value} (hv : call.value = some v) (hsound : Sound c call) :
    Puts c call v.bytes := by
  cases call with
  | int32 value | int64 value | float32 bits => cases hv; exact puts_fixed fun _ => rfl
  | string8Len value maxlen => cases hv; exact puts_string hsound
  | listBegin | listEnd => cases hv

/-- The writer after the start of a list. -/
def Writer.opened (c : Writer) : Writer :=
  { c with
    storage := store c.storage c.pos [eventTypeList, 0]
    list := fun d => if d = c.listNestDepth + 1 then c.pos + 1 else c.list d
    count := fun d =>
      if d = c.listNestDepth + 1 then 0
      else if d = c.listNestDepth then c.count d + 1 else c.count d
    listNestDepth := c.listNestDepth + 1
    pos := c.pos + 2 }

theorem writeListBegin_eq (hroom : c.pos + 2 ≤ maxEventPayload) (hover : c.overflow = false)
    (hdepth : c.listNestDepth < maxListNestDepth) : c.writeListBegin = (.ok 0, c.opened) := by
  have hover' : ¬ c.countElement.overflow = true := by
    change ¬ c.overflow = true
    rw [hover]
    decide
  unfold writeListBegin
  rw [if_neg (by omega)]
  simp only
  rw [if_neg (by omega), if_neg (by omega), if_neg hover']
  rfl

/-- A list that is begun is open, and counted in the list around it. -/
theorem Holds.opened (h : Holds c frames) (hroom : c.pos + 2 ≤ maxEventPayload)
    (hdepth : c.listNestDepth < maxListNestDepth) : Holds c.opened (Frame.empty :: frames) := by
  have hlen := h.depth
  refine ⟨by simp [Writer.opened, ← hlen], ?_, hroom, hdepth, ?_, ?_, ?_, .nil, ?_⟩
  · simp [allBytes, Frame.empty, Writer.opened, h.pos]
  · exact slice_store_append h.bytes [eventTypeList, 0]
  · change (if frames.length = c.listNestDepth + 1 then _ else _) = _
    rw [if_pos hlen.symm]
    rfl
  · change (if frames.length = c.listNestDepth + 1 then _ else _) = _
    rw [if_pos hlen.symm, h.pos]
  · -- The list around it has one element more, the others are as before.
    cases frames with
    | nil => trivial
    | cons f rest =>
      have hrest : c.listNestDepth = rest.length := by simpa using hlen
      obtain ⟨hn, hl, henc, hmatches⟩ := h.frames
      refine ⟨?_, ?_, henc, hmatches.congr (fun d hd => ?_) fun d hd => ?_⟩
      · simp only [Writer.opened]
        rw [if_neg (by omega), if_pos hrest.symm, hn]
      · simp only [Writer.opened]
        rw [if_neg (by omega), hl]
      · simp only [Writer.opened]
        rw [if_neg (by omega), if_neg (by omega)]
      · simp only [Writer.opened]
        rw [if_neg (by omega)]

/-- The writer after the end of a list. -/
def Writer.closed (c : Writer) : Writer :=
  { c with
    storage := store c.storage (c.list c.listNestDepth)
      [UInt8.ofNat (c.count c.listNestDepth)]
    listNestDepth := c.listNestDepth - 1 }

/-- A list that is ended becomes an element of the list around it. -/
theorem Holds.closed {g : Frame} (h : Holds c (f :: g :: rest))
    (hcount : c.count c.listNestDepth ≤ 255) : Holds c.closed (g.close f :: rest) := by
  have hdepth : c.listNestDepth = rest.length + 1 := by simpa using h.depth
  obtain ⟨hn, hl, henc, hng, hlg, hencg, hmatches⟩ := h.frames
  have hshallow := h.shallow
  rw [length_cons, ← hdepth] at hn hl
  refine ⟨?_, ?_, h.fits, ?_, ?_, hng, hlg, .list hencg henc (by omega),
    hmatches.congr (fun _ _ => rfl) fun _ _ => rfl⟩
  · change c.listNestDepth - 1 + 1 = _
    rw [length_cons]
    omega
  · change c.pos = _
    rw [h.pos]
    simp [allBytes, Frame.close]
  · change c.listNestDepth - 1 ≤ _
    omega
  · -- The byte for the number of elements is the one behind the type.
    have hall : allBytes (f :: g :: rest)
        = (allBytes (g :: rest) ++ [eventTypeList]) ++ 0 :: f.bytes := by
      simp [allBytes]
    have hpos : c.pos
        = (allBytes (g :: rest) ++ [eventTypeList]).length + 1 + f.bytes.length := by
      rw [h.pos, hall]
      simp
      omega
    have hbytes := h.bytes
    rw [hpos, hall] at hbytes
    have hpatch := slice_store_patch hbytes (UInt8.ofNat f.n)
    have hcountByte : c.count c.listNestDepth = f.n := hn
    have hlist : c.list c.listNestDepth
        = (allBytes (g :: rest) ++ [eventTypeList]).length := by
      rw [hl]
      simp
    change slice (store c.storage (c.list c.listNestDepth)
      [UInt8.ofNat (c.count c.listNestDepth)]) 0 c.pos = _
    rw [hlist, hcountByte, hpos, hpatch]
    simp [allBytes, Frame.close]

/-! ### One call, and all of them -/

/-- What a call does that truncates no string: it fails, and leaves the storage and the
position as they are, or it writes a value, begins a list or ends one. Sound calls that fail
change nothing but the overflow flag. -/
theorem write_cases (h : call ≠ .listBegin → Sound c call) :
    (∃ (e : Errno) (c₁ : Writer), c₁.pos = c.pos ∧ c₁.list = c.list ∧
      (Sound c call → c.listNestDepth ≤ maxListNestDepth → c.list c.listNestDepth ≠ 0 →
        c₁ = c ∨ c₁ = c.setOverflow) ∧
      ∀ s, (c.on s).write call = (.error e, c₁.on s)) ∨
    (∃ v r, call.value = some v ∧ c.pos + v.bytes.length ≤ maxEventPayload ∧
      ∀ s, (c.on s).write call = (.ok r, (c.on s).append v.bytes)) ∨
    (call = .listBegin ∧ c.pos + 2 ≤ maxEventPayload ∧ c.overflow = false ∧
      c.listNestDepth < maxListNestDepth ∧
      ∀ s, (c.on s).write call = (.ok 0, (c.on s).opened)) ∨
    (call = .listEnd ∧ c.listNestDepth ≠ 0 ∧
      ∀ s, (c.on s).write call = (.ok 0, (c.on s).closed)) := by
  cases hv : call.value with
  | some v =>
    rcases write_value hv (h (by rintro rfl; cases hv)) with ⟨e, c₁, hc₁, he⟩ | ⟨hfits, r, hr⟩
    · exact .inl ⟨e, c₁, hc₁.elim (congrArg pos) (congrArg pos),
        hc₁.elim (congrArg list) (congrArg list), fun _ _ _ => hc₁, he⟩
    · exact .inr (.inl ⟨v, r, rfl, hfits, hr⟩)
  | none =>
    by_cases hdeep : c.listNestDepth > maxListNestDepth
    · cases call with
      | listBegin =>
        exact .inl ⟨_, c.setOverflow, rfl, rfl, fun _ _ _ => .inr rfl, fun _ => if_pos hdeep⟩
      | listEnd =>
        exact .inl ⟨_, { c.setOverflow with listNestDepth := c.listNestDepth - 1 }, rfl, rfl,
          fun _ hle => absurd hdeep (not_lt.mpr hle), fun _ => if_pos hdeep⟩
      | _ => cases hv
    cases call with
    | listBegin =>
      by_cases hroom : c.pos + 2 > maxEventPayload
      · exact .inl ⟨_, c.setOverflow, rfl, rfl, fun _ _ _ => .inr rfl,
          fun _ => (if_neg hdeep).trans (if_pos hroom)⟩
      by_cases hdeep' : c.listNestDepth + 1 > maxListNestDepth
      · refine .inl ⟨_,
          { c.countElement with listNestDepth := c.listNestDepth + 1, overflow := true },
          rfl, rfl, fun hsound => ?_, fun _ => (if_neg hdeep).trans
            ((if_neg hroom).trans (if_pos hdeep'))⟩
        exact absurd (hsound (not_lt.mp hroom)).2 (by omega)
      by_cases hover : c.overflow = true
      · refine .inl ⟨_, { c.countElement with listNestDepth := c.listNestDepth + 1 }, rfl, rfl,
          fun hsound => ?_, fun _ => (if_neg hdeep).trans ((if_neg hroom).trans
            ((if_neg hdeep').trans (if_pos hover)))⟩
        exact absurd hover (by simp [(hsound (not_lt.mp hroom)).1])
      · have hover : c.overflow = false := by simpa using hover
        refine .inr (.inr (.inl ⟨rfl, not_lt.mp hroom, hover, by omega, fun s => ?_⟩))
        exact writeListBegin_eq (not_lt.mp hroom) hover
          (show c.listNestDepth < _ by omega)
    | listEnd =>
      by_cases hdepth : c.listNestDepth = 0
      · exact .inl ⟨_, c.setOverflow, rfl, rfl, fun _ _ _ => .inr rfl,
          fun _ => (if_neg hdeep).trans (if_pos hdepth)⟩
      by_cases hlist : c.list c.listNestDepth ≤ 0
      · exact .inl ⟨_, { c.setOverflow with listNestDepth := c.listNestDepth - 1 }, rfl, rfl,
          fun _ _ => absurd (Nat.le_zero.mp hlist),
          fun _ => (if_neg hdeep).trans ((if_neg hdepth).trans (if_pos hlist))⟩
      · exact .inr (.inr (.inr ⟨rfl, hdepth,
          fun _ => (if_neg hdeep).trans ((if_neg hdepth).trans (if_neg hlist))⟩))
    | _ => cases hv

/-- The element of a call that succeeds. -/
def deliver (result : Except Errno Nat) (call : WriteCall) : List Element :=
  match result with
  | .ok _ => [call.element]
  | .error _ => []

/-- What one sound call does to the open lists. -/
structure Written (c : Writer) (call : WriteCall) (frames frames' : List Frame) : Prop where
  holds : Holds (c.write call).2 frames'
  elements : allElements frames'
    = allElements frames ++ deliver (c.write call).1 call
  reach : reach frames' = max (reach frames) (c.write call).2.listNestDepth

theorem Holds.depth_le_reach (h : Holds c frames) : c.listNestDepth ≤ reach frames := by
  cases frames with
  | nil => exact absurd h.depth (Nat.succ_ne_zero _)
  | cons f rest =>
    have hdepth : c.listNestDepth = rest.length := by simpa using h.depth
    rw [reach]
    omega

/-- A call that fails and changes nothing but the overflow flag. -/
theorem Holds.failed (h : Holds c frames) {e : Errno} (he : (c.write call).1 = .error e)
    (hc : (c.write call).2 = c ∨ (c.write call).2 = c.setOverflow) :
    Written c call frames frames := by
  have hholds : Holds (c.write call).2 frames := by
    rcases hc with hc | hc <;> rw [hc]
    · exact h
    · exact h.setOverflow
  refine ⟨hholds, by rw [he]; simp [deliver], ?_⟩
  exact (max_eq_left hholds.depth_le_reach).symm

/-- Every sound call keeps the invariant, as long as the lists have at most 255
elements. -/
theorem Holds.write (h : Holds c frames) (hsound : Sound c call)
    (hcount : c.count c.listNestDepth ≤ 255) : ∃ frames', Written c call frames frames' := by
  obtain ⟨f, rest, rfl⟩ : ∃ f rest, frames = f :: rest := by
    cases frames with
    | nil => exact absurd h.depth (Nat.succ_ne_zero _)
    | cons f rest => exact ⟨f, rest, rfl⟩
  have hdepth : c.listNestDepth = rest.length := by simpa using h.depth
  rcases write_cases fun _ => hsound with ⟨e, c₁, -, -, hc₁, hc⟩ | ⟨v, r, hv, hfits, hc⟩ |
    ⟨rfl, hroom, -, hlt, hc⟩ | ⟨rfl, hnest, hc⟩
  · have heq : c.write call = (.error e, c₁.on c.storage) := hc c.storage
    have hlist : c.list c.listNestDepth ≠ 0 := by
      rw [hdepth, h.frames.2.1]
      exact Nat.succ_ne_zero _
    refine ⟨_, h.failed (by rw [heq]) ?_⟩
    rw [heq]
    exact (hc₁ hsound h.shallow hlist).imp (by rintro rfl; rfl) (by rintro rfl; rfl)
  · have heq : c.write call = (.ok r, c.append v.bytes) := hc c.storage
    refine ⟨f.push v :: rest, by rw [heq]; exact h.append v hfits, ?_, ?_⟩
    · rw [heq]
      exact Frame.allElements_append (by rw [deliver, WriteCall.element_of_value hv]; rfl) rest
    · rw [heq]
      exact (max_eq_left h.depth_le_reach).symm
  · have heq : c.write .listBegin = (.ok 0, c.opened) := hc c.storage
    refine ⟨Frame.empty :: f :: rest, by rw [heq]; exact h.opened hroom hlt, ?_, ?_⟩
    · rw [heq]
      rfl
    · rw [heq]
      change max ((f :: rest).length + 0) (reach (f :: rest)) = max _ (c.listNestDepth + 1)
      rw [max_comm, length_cons, hdepth]
  · have heq : c.write .listEnd = (.ok 0, c.closed) := hc c.storage
    cases rest with
    | nil => exact absurd hdepth hnest
    | cons g rest =>
      refine ⟨g.close f :: rest, by rw [heq]; exact h.closed hcount, ?_, ?_⟩
      · rw [heq, Frame.allElements_cons]
        refine (Frame.allElements_append rfl rest).trans ?_
        simp [deliver, WriteCall.element]
      · rw [heq]
        rw [length_cons] at hdepth
        simp only [reach, Frame.close, Writer.closed, length_cons]
        omega

/-- A property of every call of a run and the context it is made in. -/
def RunAll (P : Writer → WriteCall → Prop) : Writer → List WriteCall → Prop
  | _, [] => True
  | c, call :: rest => P c call ∧ RunAll P (c.write call).2 rest

/-- The contexts of a run. -/
def Writer.states : Writer → List WriteCall → List Writer
  | c, [] => [c]
  | c, call :: rest => c :: states (c.write call).2 rest

/-- The elements of the calls of a run that succeed. -/
def Writer.delivered : Writer → List WriteCall → List Element
  | _, [] => []
  | c, call :: rest => deliver (c.write call).1 call ++ delivered (c.write call).2 rest

/-- No list, closed or open, has received more than 255 elements. -/
def CountsFit (c : Writer) (calls : List WriteCall) : Prop :=
  ∀ c' ∈ c.states calls, ∀ d ≤ c'.listNestDepth, c'.count d ≤ 255

theorem CountsFit.tail {rest : List WriteCall} (h : CountsFit c (call :: rest)) :
    CountsFit (c.write call).2 rest :=
  fun c' hc' => h c' (mem_cons_of_mem _ hc')

/-- A run of sound calls keeps the invariant, and writes the elements of the calls that
succeed. The lists are nested as deep as the depth of a context of the run. -/
theorem Holds.writeAll (h : Holds c frames) (calls : List WriteCall) (hsound : RunAll Sound c calls)
    (hcounts : CountsFit c calls) :
    ∃ frames', Holds (c.writeAll calls) frames' ∧
      allElements frames' = allElements frames ++ c.delivered calls ∧
      ∀ b, reach frames' ≤ b ↔
        reach frames ≤ b ∧ ∀ c' ∈ c.states calls, c'.listNestDepth ≤ b := by
  induction calls generalizing c frames with
  | nil =>
    refine ⟨frames, h, by simp [delivered], fun b => ?_⟩
    have := h.depth_le_reach
    simp only [states, mem_singleton, forall_eq]
    omega
  | cons call rest ih =>
    have hcount : c.count c.listNestDepth ≤ 255 :=
      hcounts c mem_cons_self _ le_rfl
    obtain ⟨mid, hmid⟩ := h.write hsound.1 hcount
    obtain ⟨frames', hholds, helements, hreach⟩ := ih hmid.holds hsound.2 hcounts.tail
    refine ⟨frames', hholds, ?_, fun b => ?_⟩
    · rw [helements, hmid.elements, delivered, append_assoc]
    · have hdepth := h.depth_le_reach
      rw [hreach b, hmid.reach]
      simp only [states, mem_cons, forall_eq_or_imp, max_le_iff]
      constructor
      · rintro ⟨⟨hr, _⟩, hrest⟩
        exact ⟨hr, hdepth.trans hr, hrest⟩
      · rintro ⟨hr, _, hrest⟩
        refine ⟨⟨hr, hrest _ ?_⟩, hrest⟩
        cases rest <;> exact mem_cons_self

/-! ### The message -/

/-- The bytes of a message with `n` elements: a single one stands for itself, more are a
list. -/
def messageBytes (n : Nat) (bytes : List UInt8) : List UInt8 :=
  if n ≤ 1 then bytes else eventTypeList :: UInt8.ofNat n :: bytes

/-- When all lists are closed there is one frame left. -/
theorem Holds.eq_singleton (h : Holds c frames) (hdepth : c.listNestDepth = 0) :
    ∃ f, frames = [f] := by
  have hlen := h.depth
  rw [hdepth] at hlen
  exact length_eq_one_iff.mp hlen.symm

/-- The message of a writer with all lists closed. -/
theorem Holds.writeListBuffer (h : Holds c [f]) :
    c.writeListBuffer = .ok (messageBytes f.n f.bytes) := by
  have hdepth : c.listNestDepth = 0 := by simpa using h.depth
  have hcount : c.count 0 = f.n := h.frames.1
  have hpos : c.pos = [eventTypeList].length + 1 + f.bytes.length := by
    rw [h.pos]
    simp [allBytes]
    omega
  have hbytes := h.bytes
  rw [hpos] at hbytes
  have hpatch : slice (store c.storage 1 [UInt8.ofNat f.n]) 0 c.pos
      = eventTypeList :: UInt8.ofNat f.n :: f.bytes := by
    rw [hpos]
    exact slice_store_patch hbytes (UInt8.ofNat f.n)
  unfold Writer.writeListBuffer messageBytes
  rw [if_neg (by omega)]
  simp only [hcount]
  split
  · have hsplit : c.pos = 2 + (c.pos - 2) := by
      rw [hpos, length_singleton]
      omega
    rw [hsplit, slice_append] at hpatch
    have hpatch : slice _ 0 2 ++ slice _ (0 + 2) (c.pos - 2)
        = [eventTypeList, UInt8.ofNat f.n] ++ f.bytes := hpatch
    rw [← (append_inj hpatch (by simp)).2]
  · rw [hpatch]

end AndroidCore.Liblog
