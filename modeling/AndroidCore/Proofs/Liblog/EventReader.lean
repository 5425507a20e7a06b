import AndroidCore.Proofs.Liblog.EventWriter

/-!
# `AndroidCore.Proofs.Liblog.EventReader`: reading what the writer has written

The reader goes through an encoding element by element (`Encodes.reads`), as long as the
lists are not nested deeper than the eight levels it can count. A message with more than
one element is a list, so that its lists are one level deeper for the reader than they
were for the writer: a list at the eighth level is flagged as complete at its start, and
what follows is lost (`Encodes.stops`). `reads_message_iff` says it for whole messages.
-/

namespace AndroidCore.Liblog

open Lib List Option

/-! ### Steps of the reader -/

/-- The bytes that are left to read. Behind the message the storage is zero. -/
structure Reader.At (r : Reader) (bs : List UInt8) : Prop where
  le : r.pos ≤ r.len
  bytes : slice r.storage r.pos (r.len - r.pos) = bs
  zero : ∀ i, r.len ≤ i → r.storage i = 0

namespace Reader.At

variable {r r' : Reader} {a b : List UInt8}

theorem length_eq (h : r.At a) : r.len = r.pos + a.length := by
  have hlen := congrArg length h.bytes
  rw [length_slice] at hlen
  have := h.le
  omega

/-- The bytes in front. -/
theorem slice_eq (h : r.At (a ++ b)) : slice r.storage r.pos a.length = a := by
  have hlen := h.length_eq
  have hbytes := h.bytes
  rw [length_append] at hlen
  rw [show r.len - r.pos = a.length + b.length by omega, slice_append] at hbytes
  exact (append_inj hbytes (by simp)).1

theorem head (h : r.At (a ++ b)) {x : UInt8} {tail : List UInt8} (ha : a = x :: tail) :
    r.storage r.pos = x := by
  have hslice := h.slice_eq
  rw [ha, length_cons, Nat.add_comm, slice_append] at hslice
  simpa [slice] using (cons.inj hslice).1

/-- Behind them. -/
theorem drop (h : r.At (a ++ b)) (hpos : r'.pos = r.pos + a.length) (hlen : r'.len = r.len)
    (hstorage : r'.storage = r.storage) : r'.At b := by
  have hle := h.length_eq
  have hbytes := h.bytes
  rw [length_append] at hle
  rw [show r.len - r.pos = a.length + b.length by omega, slice_append] at hbytes
  have hb := (append_inj hbytes (by simp)).2
  refine ⟨by omega, ?_, fun i hi => ?_⟩
  · rw [hstorage, hpos, hlen, show r.len - (r.pos + a.length) = b.length by omega, hb]
  · rw [hstorage]
    exact h.zero i (by omega)

/-- The next byte is not a superfluous stop. -/
theorem ne_listStop (h : r.At a) (ha : a.head? ≠ some eventTypeListStop) :
    r.storage r.pos ≠ eventTypeListStop := by
  cases a with
  | nil =>
    rw [h.zero r.pos (by rw [h.length_eq]; simp)]
    decide
  | cons x tail =>
    have h' : r.At ([x] ++ tail) := h
    rw [h'.head rfl]
    exact fun hx => ha (congrArg some hx)

end Reader.At

variable {r : Reader}

/-- The reader can still count. -/
theorem exhausted_eq_false (hdepth : r.listNestDepth ≤ maxListNestDepth)
    (hcount : r.count r.listNestDepth ≤ 255) : ¬ r.exhausted = true := by
  have hpay : maxEventPayload / 2 = 2032 := rfl
  simp only [Reader.exhausted, decide_eq_true_eq]
  omega

variable {k h n : Nat}

theorem leValue_leBytes_of_lt (h : n < 256 ^ k) : leValue (leBytes k n) = n := by
  rw [leValue_leBytes, Nat.mod_eq_of_lt h]

variable {rest : List UInt8}

/-- Reading a value of a fixed size. -/
theorem readFixed_eq {bytes : List UInt8} {type : UInt8} {size : Nat}
    (hbytes : bytes = type :: leBytes size n) (hat : r.At (bytes ++ rest)) (hn : n < 256 ^ size)
    (element : Nat → Element) :
    r.readFixed (r.pos + 1) size element
      = (element n, r.valueComplete, r.finishValue (r.pos + bytes.length)) := by
  have hslice := hat.slice_eq
  have hlen := hat.length_eq
  have hlength : bytes.length = 1 + size := by rw [hbytes]; simp; omega
  rw [length_append] at hlen
  rw [hlength, slice_append, hbytes] at hslice
  have hvalue : slice r.storage (r.pos + 1) size = leBytes size n := (cons.inj hslice).2
  unfold Reader.readFixed
  rw [if_neg (by omega), hvalue, leValue_leBytes_of_lt hn, hlength, Nat.add_assoc]

/-- Reading a string. -/
theorem readString_eq {value : List UInt8} (hat : r.At ((Value.string value).bytes ++ rest))
    (hsize : (Value.string value).bytes.length ≤ maxEventPayload) :
    r.readString (r.pos + 1)
      = (.string value, r.valueComplete,
          r.finishValue (r.pos + (Value.string value).bytes.length)) := by
  have hslice := hat.slice_eq
  have hlen := hat.length_eq
  have hpay : maxEventPayload = 4064 := rfl
  have hlength : (Value.string value).bytes.length = 1 + (4 + value.length) := by
    simp [Value.bytes]
    omega
  rw [length_append] at hlen
  rw [hlength, slice_append, slice_append] at hslice
  have htail : slice r.storage (r.pos + 1) 4 ++ slice r.storage (r.pos + 1 + 4) value.length
      = leBytes 4 value.length ++ value := (cons.inj hslice).2
  obtain ⟨hprefixBytes, hvalue⟩ := append_inj htail (by simp)
  have hn : leValue (slice r.storage (r.pos + 1) 4) % 2 ^ 16 = value.length := by
    rw [hprefixBytes, leValue_leBytes_of_lt (by omega), Nat.mod_eq_of_lt (by omega)]
  unfold Reader.readString
  rw [if_neg (by omega)]
  simp only [hn]
  rw [if_neg (by omega), if_neg (by omega), hvalue, hlength]
  simp only [Nat.add_assoc]

/-- Reading a value at the position of the reader. -/
theorem readNext_value {v : Value} (hat : r.At (v.bytes ++ rest))
    (hsize : v.bytes.length ≤ maxEventPayload) (hexhausted : ¬ r.exhausted = true)
    (hstop : r.listStop = false) :
    r.readNext = (v.element, r.valueComplete, r.finishValue (r.pos + v.bytes.length)) := by
  have hlen := hat.length_eq
  have hpos : 0 < v.bytes.length := by cases v <;> simp [Value.bytes]
  rw [length_append] at hlen
  unfold Reader.readNext
  rw [if_neg hexhausted, if_neg (by simp [hstop]), if_neg (by omega)]
  cases v with
  | int32 value =>
    have htype := hat.head rfl
    simp only [htype]
    have hval := readFixed_eq rfl hat value.toNat_lt fun v => .int32 (UInt32.ofNat v)
    simpa [eventTypeInt, eventTypeFloat, Value.element, Value.bytes] using hval
  | int64 value =>
    have htype := hat.head rfl
    simp only [htype]
    have hval := readFixed_eq rfl hat value.toNat_lt fun v => .int64 (UInt64.ofNat v)
    simpa [eventTypeInt, eventTypeFloat, eventTypeLong, Value.element, Value.bytes] using hval
  | float32 bits =>
    have htype := hat.head rfl
    simp only [htype]
    have hval := readFixed_eq rfl hat bits.toNat_lt fun v => .float32 (UInt32.ofNat v)
    simpa [Value.element, Value.bytes] using hval
  | string value =>
    have htype := hat.head rfl
    simp only [htype]
    simpa [eventTypeInt, eventTypeFloat, eventTypeLong, eventTypeString, Value.element]
      using readString_eq hat hsize

/-- The reader behind the start of a list with `n` elements. -/
def Reader.entered (r : Reader) (n : Nat) : Reader :=
  { r with
    listStop := n = 0
    listNestDepth := r.listNestDepth + 1
    count := fun d =>
      if d = r.listNestDepth then r.count d - 1
      else if d = r.listNestDepth + 1 ∧ d ≤ maxListNestDepth then n
      else r.count d
    pos := r.pos + 2 }

/-- Reading the start of a list. -/
theorem readNext_list (hat : r.At (eventTypeList :: UInt8.ofNat n :: rest)) (hn : n ≤ 255)
    (hexhausted : ¬ r.exhausted = true) (hstop : r.listStop = false) :
    r.readNext = (.list, decide (r.listNestDepth ≥ maxListNestDepth), r.entered n) := by
  have hat : r.At ([eventTypeList, UInt8.ofNat n] ++ rest) := hat
  have hlen := hat.length_eq
  have hslice := hat.slice_eq
  have htype := hat.head rfl
  have hcount : r.storage (r.pos + 1) = UInt8.ofNat n := by
    have hget := congrArg (fun l => l[1]?) hslice
    exact some.inj hget
  have hn' : (UInt8.ofNat n).toNat = n := by
    exact Nat.mod_eq_of_lt (by omega)
  rw [length_append] at hlen
  simp only [length_cons] at hlen
  unfold Reader.readNext
  rw [if_neg hexhausted, if_neg (by simp [hstop]), if_neg (by omega)]
  simp only [htype]
  rw [if_neg (by decide), if_neg (by decide), if_neg (by decide), if_neg (by decide),
    if_pos trivial]
  unfold Reader.readList
  rw [if_neg (by omega)]
  simp only [hcount, hn']
  rfl

/-- The reader behind the end of a list. -/
def Reader.left (r : Reader) : Reader :=
  { r with
    listNestDepth := r.listNestDepth - 1
    listStop := if r.count (r.listNestDepth - 1) ≠ 0 then false else r.listStop }

/-- Reading the end of a list. -/
theorem readNext_listStop (hat : r.At rest) (hrest : rest.head? ≠ some eventTypeListStop)
    (hexhausted : ¬ r.exhausted = true) (hstop : r.listStop = true) (hdepth : r.listNestDepth ≠ 0) :
    r.readNext = (.listStop,
      decide (r.count 0 = 0 ∧ (r.listNestDepth = 0 ∨ r.listNestDepth = 1 ∧ r.count 1 = 0)),
      r.left) := by
  unfold Reader.readNext
  rw [if_neg hexhausted, if_pos hstop]
  unfold Reader.readListStop
  rw [if_neg (hat.ne_listStop hrest)]
  simp only
  rw [if_pos hdepth]
  rfl

/-- Reading elements none of which is complete. -/
inductive Reader.Steps : Reader → List Element → Reader → Prop
  | nil (r : Reader) : Steps r [] r
  | cons {r mid r' : Reader} {e : Element} {es : List Element}
      (h : r.readNext = (e, false, mid)) (hrest : Steps mid es r') : Steps r (e :: es) r'

namespace Reader.Steps

variable {r mid r' : Reader} {es es' : List Element}

theorem single {e : Element} (h : r.readNext = (e, false, r')) : Steps r [e] r' :=
  .cons h (.nil _)

theorem trans (h : Steps r es mid) (h' : Steps mid es' r') : Steps r (es ++ es') r' := by
  induction h with
  | nil => exact h'
  | cons hstep _ ih => exact .cons hstep (ih h')

/-- The elements are in front of all that is read. -/
theorem readAll (h : Steps r es r') {fuel : Nat} {out : List Element}
    (hout : r'.readAll fuel = some out) :
    r.readAll (es.length + fuel) = some (es ++ out) := by
  induction h with
  | nil => simpa using hout
  | @cons r mid r' e es hstep _ ih =>
    rw [length_cons, Nat.succ_add, Reader.readAll, hstep]
    simp only [ih hout]
    rfl

end Reader.Steps

variable {r : Reader}

/-- A last element. -/
theorem readAll_complete {r' : Reader} {e : Element} (h : r.readNext = (e, true, r')) :
    r.readAll 1 = some [e] := by
  rw [Reader.readAll, h]

/-- More fuel reads the same. -/
theorem readAll_mono {fuel fuel' : Nat} (hle : fuel ≤ fuel') {out : List Element}
    (h : r.readAll fuel = some out) : r.readAll fuel' = some out := by
  induction fuel generalizing fuel' r out with
  | zero => cases h
  | succ fuel ih =>
    obtain ⟨fuel', rfl⟩ : ∃ k, fuel' = k + 1 := ⟨fuel' - 1, by omega⟩
    rw [Reader.readAll] at h ⊢
    revert h
    rcases r.readNext with ⟨e, _ | _, r'⟩
    · intro h
      obtain ⟨tail, htail, rfl⟩ := map_eq_some_iff.mp h
      exact map_eq_some_iff.mpr ⟨tail, ih (by omega) htail, rfl⟩
    · exact id

theorem readAll_unique {fuel fuel' : Nat} {out out' : List Element} (h : r.readAll fuel = some out)
    (h' : r.readAll fuel' = some out') : out = out' :=
  some.inj ((readAll_mono (le_max_left fuel fuel') h).symm.trans
    (readAll_mono (le_max_right fuel fuel') h'))

/-! ### Reading an encoding -/

/-- No element starts with the type of a stop. -/
theorem Value.head_ne (v : Value) (rest : List UInt8) :
    (v.bytes ++ rest).head? ≠ some eventTypeListStop := by
  cases v <;> simp [Value.bytes, eventTypeInt, eventTypeLong, eventTypeFloat,
    eventTypeString, eventTypeListStop]

/-- The reader `r'` is behind `n` elements of the list that `r` is in. -/
structure Behind (r r' : Reader) (n : Nat) (rest : List UInt8) : Prop where
  at_rest : r'.At rest
  depth : r'.listNestDepth = r.listNestDepth
  count : r'.count r.listNestDepth = r.count r.listNestDepth - n
  outer : ∀ d < r.listNestDepth, r'.count d = r.count d
  stop : r'.listStop = if n = 0 then r.listStop else decide (r.count r.listNestDepth = n)

/-- The reader is in a list of which at least `n` elements are left. -/
structure Inside (r : Reader) (n : Nat) : Prop where
  pos : 1 ≤ r.listNestDepth
  shallow : r.listNestDepth ≤ maxListNestDepth
  enough : n ≤ r.count r.listNestDepth
  fits : r.count r.listNestDepth ≤ 255
  stop : n ≠ 0 → r.listStop = false

namespace Inside

variable {r r' : Reader} {n : Nat} {rest : List UInt8}

theorem weaken (h : Inside r (n + 1)) : Inside r n :=
  ⟨h.pos, h.shallow, Nat.le_of_succ_le h.enough, h.fits, fun _ => h.stop (Nat.succ_ne_zero n)⟩

theorem not_exhausted (h : Inside r n) : ¬ r.exhausted = true :=
  exhausted_eq_false h.shallow h.fits

/-- With one more element to read there is no stop pending. -/
theorem behind (h : Inside r (n + 1)) (hb : Behind r r' n rest) : Inside r' 1 := by
  have henough := h.enough
  have hfits := h.fits
  refine ⟨?_, ?_, ?_, ?_, fun _ => ?_⟩
  · rw [hb.depth]
    exact h.pos
  · rw [hb.depth]
    exact h.shallow
  · rw [hb.depth, hb.count]
    omega
  · rw [hb.depth, hb.count]
    omega
  · rw [hb.stop]
    split
    · exact h.stop (Nat.succ_ne_zero n)
    · exact decide_eq_false (by omega)

theorem count_entered (hdepth : r.listNestDepth < maxListNestDepth) :
    (r.entered k).count (r.entered k).listNestDepth = k := by
  simp only [Reader.entered]
  rw [if_neg (by omega), if_pos ⟨trivial, by omega⟩]

/-- The reader at the start of a list. -/
theorem entered (hdepth : r.listNestDepth < maxListNestDepth) (hk : k ≤ 255) :
    Inside (r.entered k) k := by
  have hcount := count_entered (k := k) hdepth
  refine ⟨Nat.succ_pos _, hdepth, hcount.ge, hcount.trans_le hk, fun hne => ?_⟩
  exact decide_eq_false hne

end Inside

variable {rest : List UInt8} {n : Nat} {r mid : Reader}

/-- A value more. -/
theorem Behind.value {v : Value} (hin : Inside r (n + 1)) (hb : Behind r mid n (v.bytes ++ rest)) :
    Behind r (mid.finishValue (mid.pos + v.bytes.length)) (n + 1) rest := by
  have henough := hin.enough
  have hmid := hin.behind hb
  refine ⟨hb.at_rest.drop rfl rfl rfl, hb.depth, ?_, fun d hd => ?_, ?_⟩
  · simp only [Reader.finishValue]
    rw [if_pos hb.depth.symm, hb.depth, hb.count]
    omega
  · simp only [Reader.finishValue]
    rw [if_neg (by rw [hb.depth]; omega), hb.outer d hd]
  · simp only [Reader.finishValue]
    rw [hmid.stop Nat.one_ne_zero, hb.depth, hb.count, if_neg (Nat.succ_ne_zero n)]
    by_cases hlast : r.count r.listNestDepth = n + 1
    · rw [if_pos (by omega), decide_eq_true hlast]
    · rw [if_neg (by omega), decide_eq_false hlast]

variable {last : Reader}

/-- A list more, whose end is read by `last`. -/
theorem Behind.list {inner : List UInt8} (hin : Inside r (n + 1)) (hb : Behind r mid n inner)
    (hlast : Behind (mid.entered k) last k rest) (hstop : last.listStop = true) :
    Behind r last.left (n + 1) rest := by
  have henough := hin.enough
  have hdepth : last.listNestDepth = r.listNestDepth + 1 :=
    hlast.depth.trans (congrArg (· + 1) hb.depth)
  -- The counters of the outer lists are those after the start of the list.
  have houter : ∀ d < r.listNestDepth + 1,
      last.count d = if d = r.listNestDepth then mid.count d - 1 else mid.count d := by
    intro d hd
    rw [hlast.outer d (by change d < mid.listNestDepth + 1; rw [hb.depth]; exact hd)]
    simp only [Reader.entered]
    rw [hb.depth]
    split
    · rfl
    · rw [if_neg (by omega)]
  have hcount : last.count r.listNestDepth = r.count r.listNestDepth - (n + 1) := by
    rw [houter _ (by omega), if_pos rfl, hb.count]
    omega
  refine ⟨⟨hlast.at_rest.le, hlast.at_rest.bytes, hlast.at_rest.zero⟩, ?_, hcount,
    fun d hd => ?_, ?_⟩
  · change last.listNestDepth - 1 = _
    omega
  · change last.count d = _
    rw [houter d (by omega), if_neg (by omega), hb.outer d hd]
  · change (if last.count (last.listNestDepth - 1) ≠ 0 then false else last.listStop) = _
    rw [hdepth, Nat.add_sub_cancel, hstop, if_neg (Nat.succ_ne_zero n)]
    by_cases hall : r.count r.listNestDepth = n + 1
    · rw [if_neg (by omega), decide_eq_true hall]
    · rw [if_pos (by omega), decide_eq_false hall]

/-- At the end of a list its stop is pending. -/
theorem Behind.listStop_of_all (h : Behind (r.entered k) last k rest)
    (hdepth : r.listNestDepth < maxListNestDepth) : last.listStop = true := by
  rw [h.stop]
  split
  next hzero => exact decide_eq_true hzero
  next => exact decide_eq_true (Inside.count_entered hdepth)

/-- At the end of a list nothing of it is left. -/
theorem Behind.count_of_all (h : Behind (r.entered k) last k rest)
    (hdepth : r.listNestDepth < maxListNestDepth) : last.count (r.listNestDepth + 1) = 0 := by
  have hcount : last.count (r.listNestDepth + 1) = _ := h.count
  rw [hcount, Inside.count_entered hdepth, Nat.sub_self]

/-- The list that comes next. -/
theorem Behind.enter {inner : List UInt8} (hin : Inside r (n + 1))
    (hb : Behind r mid n (eventTypeList :: UInt8.ofNat k :: inner ++ rest)) (hk : k ≤ 255) :
    mid.readNext = (.list, decide (mid.listNestDepth ≥ maxListNestDepth), mid.entered k) ∧
      (mid.entered k).At (inner ++ rest) := by
  have hmid := hin.behind hb
  exact ⟨readNext_list hb.at_rest hk hmid.not_exhausted (hmid.stop Nat.one_ne_zero),
    Reader.At.drop (a := [eventTypeList, UInt8.ofNat k]) hb.at_rest rfl rfl rfl⟩

theorem list_head_ne (bs : List UInt8) : (eventTypeList :: bs).head? ≠ some eventTypeListStop := by
  change some eventTypeList ≠ _
  decide

variable {bs : List UInt8} {es : List Element}

section
variable (henc : Encodes n h bs es) (hat : r.At (bs ++ rest))
  (hrest : rest.head? ≠ some eventTypeListStop) (hin : Inside r n)
include henc hat hrest hin

/-- The reader goes through an encoding whose lists it can count. -/
theorem Encodes.reads (hdeep : r.listNestDepth + h ≤ maxListNestDepth) :
    ∃ r', r.Steps es r' ∧ Behind r r' n rest := by
  induction henc generalizing r rest with
  | nil => exact ⟨r, .nil r, hat, rfl, rfl, fun _ _ => rfl, rfl⟩
  | @value n h bs es _ v hsize ih =>
    rw [append_assoc] at hat
    obtain ⟨mid, hsteps, hb⟩ := ih hat (v.head_ne rest) hin.weaken hdeep
    have hmid := hin.behind hb
    have hread := readNext_value hb.at_rest hsize hmid.not_exhausted
      (hmid.stop Nat.one_ne_zero)
    -- In a list no value is the last element of the message.
    have hcomplete : mid.valueComplete = false := by
      refine decide_eq_false fun hzero => ?_
      have := hmid.pos
      omega
    rw [hcomplete] at hread
    exact ⟨_, hsteps.trans (.single hread), hb.value hin⟩
  | @list n h bs es _ k h' bs' es' _ hk ih ih' =>
    rw [append_assoc] at hat
    obtain ⟨mid, hsteps, hb⟩ := ih hat (list_head_ne _) hin.weaken (by omega)
    have hlt : mid.listNestDepth < maxListNestDepth := by
      rw [hb.depth]
      omega
    obtain ⟨hread, hat'⟩ := hb.enter hin hk
    rw [decide_eq_false (by omega)] at hread
    have hdeep' : (mid.entered k).listNestDepth + h' ≤ maxListNestDepth := by
      change mid.listNestDepth + 1 + h' ≤ _
      rw [hb.depth]
      omega
    obtain ⟨last, hsteps', hb'⟩ := ih' hat' hrest (Inside.entered hlt hk) hdeep'
    have hstop := hb'.listStop_of_all hlt
    have hdepth : last.listNestDepth = mid.listNestDepth + 1 := hb'.depth
    have hexhausted : ¬ last.exhausted = true := by
      refine exhausted_eq_false (by omega) ?_
      rw [hdepth, hb'.count_of_all hlt]
      exact Nat.zero_le _
    have hend := readNext_listStop hb'.at_rest hrest hexhausted hstop (by omega)
    have hpos := (hin.behind hb).pos
    rw [decide_eq_false (by omega)] at hend
    refine ⟨last.left, ?_, hb.list hin hb' hstop⟩
    exact hsteps.trans (.cons hread (hsteps'.trans (.single hend)))

/-- The reader stops early at a list that is too deep for it. -/
theorem Encodes.stops (hdeep : maxListNestDepth < r.listNestDepth + h) :
    ∃ fuel out, r.readAll fuel = some out ∧ out.length < es.length := by
  induction henc generalizing r rest with
  | nil =>
    have := hin.shallow
    omega
  | @value n h bs es _ v hsize ih =>
    rw [append_assoc] at hat
    obtain ⟨fuel, out, hout, hlt⟩ := ih hat (v.head_ne rest) hin.weaken hdeep
    refine ⟨fuel, out, hout, ?_⟩
    rw [length_append]
    omega
  | @list n h bs es hinit k h' bs' es' hinner hk ih ih' =>
    rw [append_assoc] at hat
    by_cases hfirst : r.listNestDepth + h ≤ maxListNestDepth
    · -- The elements in front are read, the list is what is too deep.
      obtain ⟨mid, hsteps, hb⟩ := hinit.reads hat (list_head_ne _) hin.weaken hfirst
      obtain ⟨hread, hat'⟩ := hb.enter hin hk
      by_cases hlt : mid.listNestDepth < maxListNestDepth
      · rw [decide_eq_false (by omega)] at hread
        have hdeep' : maxListNestDepth < (mid.entered k).listNestDepth + h' := by
          change _ < mid.listNestDepth + 1 + h'
          rw [hb.depth]
          omega
        obtain ⟨fuel, out, hout, hshort⟩ := ih' hat' hrest (Inside.entered hlt hk) hdeep'
        refine ⟨_, _, (hsteps.trans (.single hread)).readAll hout, ?_⟩
        simp
        omega
      · rw [decide_eq_true (by omega)] at hread
        refine ⟨_, _, hsteps.readAll (readAll_complete hread), ?_⟩
        simp
    · obtain ⟨fuel, out, hout, hlt⟩ := ih hat (list_head_ne _) hin.weaken (by omega)
      refine ⟨fuel, out, hout, ?_⟩
      rw [length_append]
      omega

end

/-! ### Reading a message -/

/-- Repeated `android_log_read_next`, up to the first complete element. -/
def Reads (msg : List UInt8) (elements : List Element) : Prop :=
  ∃ fuel, (createAndroidLogParser msg).readAll fuel = some elements

theorem Reads.unique {msg : List UInt8} {es' : List Element} (h : Reads msg es)
    (h' : Reads msg es') :
    es = es' := by
  obtain ⟨fuel, hfuel⟩ := h
  obtain ⟨fuel', hfuel'⟩ := h'
  exact readAll_unique hfuel hfuel'

/-- The elements of a message with `n` elements. -/
def messageElements (n : Nat) (es : List Element) : List Element :=
  if n ≤ 1 then es else .list :: es ++ [.listStop]

/-- The parser at the start of its message. -/
theorem createAndroidLogParser_at {msg : List UInt8} (h : msg.length ≤ maxEventPayload) :
    (createAndroidLogParser msg).At msg := by
  have htake : msg.take maxEventPayload = msg := take_of_length_le h
  refine ⟨Nat.zero_le _, ?_, fun i hi => ?_⟩
  · simp only [createAndroidLogParser]
    rw [htake, Nat.min_eq_left h]
    exact slice_store_self _ 0 msg
  · simp only [createAndroidLogParser] at hi ⊢
    rw [htake]
    unfold store
    rw [if_neg (by omega)]

theorem createAndroidLogParser_not_exhausted (msg : List UInt8) :
    ¬ (createAndroidLogParser msg).exhausted = true :=
  exhausted_eq_false (Nat.zero_le _) (Nat.zero_le _)

theorem Encodes.eq_nil (henc : Encodes 0 h bs es) : bs = [] ∧ es = [] ∧ h = 0 := by
  cases henc
  exact ⟨rfl, rfl, rfl⟩

/-- The parser of a message that is a list, and its first step. -/
structure ListParser (n : Nat) (bs : List UInt8) (r : Reader) : Prop where
  eq : createAndroidLogParser (eventTypeList :: UInt8.ofNat n :: bs) = r
  lt : r.listNestDepth < maxListNestDepth
  depth : r.listNestDepth = 0
  count : r.count 0 = 0
  read : r.readNext = (.list, false, r.entered n)
  at_list : (r.entered n).At (bs ++ [])

section
variable (henc : Encodes n h bs es) (hn : n ≤ 255)
  (hsize : (eventTypeList :: UInt8.ofNat n :: bs).length ≤ maxEventPayload)
include hn hsize

theorem exists_listParser : ∃ r, ListParser n bs r := by
  have hat := createAndroidLogParser_at hsize
  refine ⟨_, rfl, show 0 < 8 by decide, rfl, rfl, ?_, ?_⟩
  · rw [readNext_list hat hn (createAndroidLogParser_not_exhausted _) rfl]
    rfl
  · rw [append_nil]
    exact Reader.At.drop (a := [eventTypeList, UInt8.ofNat n]) hat rfl rfl rfl

include henc

/-- A message that is a list is read to its end if its lists are not too deep. -/
theorem reads_list (hdeep : h + 1 ≤ maxListNestDepth) :
    Reads (eventTypeList :: UInt8.ofNat n :: bs) (.list :: es ++ [.listStop]) := by
  obtain ⟨r, hr⟩ := exists_listParser hn hsize
  have hdeep' : (r.entered n).listNestDepth + h ≤ maxListNestDepth := by
    change r.listNestDepth + 1 + h ≤ _
    rw [hr.depth]
    omega
  obtain ⟨last, hsteps, hb⟩ := henc.reads hr.at_list (by simp) (Inside.entered hr.lt hn) hdeep'
  -- The stop of the outermost list is the complete element.
  have hdepth : last.listNestDepth = 1 := by
    rw [hb.depth]
    change r.listNestDepth + 1 = 1
    rw [hr.depth]
  have hcount : last.count 1 = 0 := by
    have hall := hb.count_of_all hr.lt
    rwa [hr.depth] at hall
  have houter : last.count 0 = 0 := by
    rw [hb.outer 0 (by change 0 < r.listNestDepth + 1; omega)]
    simp only [Reader.entered]
    rw [hr.depth, if_pos rfl, hr.count]
  have hexhausted : ¬ last.exhausted = true :=
    exhausted_eq_false (by rw [hdepth]; decide) (by rw [hdepth, hcount]; decide)
  have hend := readNext_listStop hb.at_rest (by simp) hexhausted (hb.listStop_of_all hr.lt)
    (by omega)
  rw [decide_eq_true ⟨houter, .inr ⟨hdepth, hcount⟩⟩] at hend
  exact ⟨_, hr.eq ▸ (Reader.Steps.cons hr.read hsteps).readAll (readAll_complete hend)⟩

/-- A message that is a list is not read to its end if its lists are too deep. -/
theorem not_reads_list (hdeep : maxListNestDepth < h + 1) :
    ¬ Reads (eventTypeList :: UInt8.ofNat n :: bs) (.list :: es ++ [.listStop]) := by
  intro hreads
  obtain ⟨r, hr⟩ := exists_listParser hn hsize
  have hdeep' : maxListNestDepth < (r.entered n).listNestDepth + h := by
    change _ < r.listNestDepth + 1 + h
    omega
  obtain ⟨fuel, out, hout, hshort⟩ :=
    henc.stops hr.at_list (by simp) (Inside.entered hr.lt hn) hdeep'
  have hout' := (Reader.Steps.single hr.read).readAll hout
  have heq := hreads.unique ⟨_, hr.eq ▸ hout'⟩
  have hlen := congrArg length heq
  simp at hlen
  omega

end

/-- A message of one element is read to its end: the writer nests lists no deeper than the
reader counts. -/
theorem reads_single (henc : Encodes 1 h bs es) (hsize : bs.length ≤ maxEventPayload)
    (hdeep : h ≤ maxListNestDepth) : Reads bs es := by
  generalize hone : 1 = n at henc
  cases henc with
  | nil => cases hone
  | @value n h bs es hinit v hv =>
    obtain rfl : n = 0 := by omega
    obtain ⟨rfl, rfl, rfl⟩ := hinit.eq_nil
    have hat := createAndroidLogParser_at hsize
    have hat' : (createAndroidLogParser v.bytes).At (v.bytes ++ []) := by
      rwa [append_nil]
    exact ⟨1, readAll_complete (readNext_value hat' hv
      (createAndroidLogParser_not_exhausted _) rfl)⟩
  | @list n h bs es hinit k h' bs' es' hinner hk =>
    obtain rfl : n = 0 := by omega
    obtain ⟨rfl, rfl, rfl⟩ := hinit.eq_nil
    exact reads_list hinner hk hsize (by omega)

/-- The message of an encoding is read to its end exactly if it is not empty, and if a
message that is a list has room for its own level. -/
theorem reads_message_iff (henc : Encodes n h bs es) (hn : n ≤ 255)
    (hsize : (messageBytes n bs).length ≤ maxEventPayload) (hdeep : h ≤ maxListNestDepth) :
    Reads (messageBytes n bs) (messageElements n es) ↔
      1 ≤ n ∧ (n ≤ 1 ∨ h + 1 ≤ maxListNestDepth) := by
  unfold messageBytes messageElements at *
  by_cases hle : n ≤ 1
  · by_cases hzero : n = 0
    · -- The reader finds no element in an empty message.
      subst hzero
      obtain ⟨rfl, rfl, -⟩ := henc.eq_nil
      refine ⟨fun hreads => ?_, fun hpos => by omega⟩
      have hunknown : Reads [] [.unknown] := ⟨1, by decide⟩
      cases hreads.unique hunknown
    · obtain rfl : n = 1 := by omega
      exact ⟨fun _ => ⟨le_rfl, .inl le_rfl⟩, fun _ => reads_single henc hsize hdeep⟩
  · rw [if_neg hle] at hsize ⊢
    rw [if_neg hle]
    refine ⟨fun hreads => ⟨by omega, .inr ?_⟩, fun hpos => ?_⟩
    · by_contra hgt
      exact not_reads_list henc hn hsize (by omega) hreads
    · exact reads_list henc hn hsize (by omega)

/-- An encoding has no unknown elements. -/
theorem Encodes.unknown_not_mem (henc : Encodes n h bs es) : Element.unknown ∉ es := by
  induction henc with
  | nil => exact not_mem_nil
  | value _ v _ ih => cases v <;> simpa [Value.element] using ih
  | list _ _ _ ih ih' => simpa using ⟨ih, ih'⟩

end AndroidCore.Liblog
