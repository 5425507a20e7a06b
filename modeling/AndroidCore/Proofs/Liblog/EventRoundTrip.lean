import AndroidCore.Proofs.Liblog.EventReader

/-!
# `AndroidCore.Proofs.Liblog.EventRoundTrip`: from the calls of the writer to the reader

* `eventList_roundTrip_iff`: when calls that all succeed are read back.
* `eventList_counts`: the numbers of elements in the message of calls that all succeed.
* `eventList_wellFormed`: calls of which some may fail leave a well formed message, as long
  as none of them leaves a wrong count or position behind.
* `writeAll_inside`: calls that truncate no string stay inside the storage.
-/

namespace AndroidCore.Liblog

open List Writer

/-! ### Runs of the writer -/

/-- The calls that do what they are to do: they succeed, and a string is written with all
its bytes. -/
def Delivers (c : Writer) (call : WriteCall) : Prop :=
  (c.write call).1.isOk = true ∧
    match call with
    | .string8Len value maxlen =>
      c.pos + (1 + 4 + strnlen value maxlen) ≤ maxEventPayload
    | _ => True

/-- The depth after a call that succeeds. -/
def nestAfter (depth : Nat) : WriteCall → Nat
  | .listBegin => depth + 1
  | .listEnd => depth - 1
  | _ => depth

/-- The depths that the calls lead to. -/
def nestings : Nat → List WriteCall → List Nat
  | depth, [] => [depth]
  | depth, call :: rest => depth :: nestings (nestAfter depth call) rest

/-- The number of elements a call adds outside of all lists. -/
def topStep (depth : Nat) (call : WriteCall) : Nat :=
  if depth = 0 ∧ call ≠ .listEnd then 1 else 0

/-- The number of elements outside of all lists. -/
def topLevel : Nat → List WriteCall → Nat
  | _, [] => 0
  | depth, call :: rest => topStep depth call + topLevel (nestAfter depth call) rest

variable {c : Writer} {call : WriteCall}

/-- A call that succeeds does not fail. -/
theorem Delivers.not_error (h : Delivers c call) {e : Errno} {c' : Writer}
    (he : c.write call = (.error e, c')) : False := by
  have hok := h.1
  rw [he] at hok
  cases hok

theorem sound_of_delivers (h : Delivers c call) : Sound c call := by
  cases call with
  | string8Len value maxlen => exact fun _ => .inl h.2
  | listBegin =>
    intro hroom
    rcases write_cases (absurd rfl) with ⟨e, c₁, -, -, -, he⟩ | ⟨v, r, hv, -⟩ |
      ⟨-, -, hover, hlt, -⟩ | ⟨hend, -⟩
    · exact (h.not_error (he c.storage)).elim
    · cases hv
    · exact ⟨hover, hlt⟩
    · cases hend
  | int32 value | int64 value | float32 bits | listEnd => trivial

/-- What a call that succeeds does to the depth and to the outermost list. -/
theorem write_delivers (h : Delivers c call) :
    (c.write call).2.listNestDepth = nestAfter c.listNestDepth call ∧
      (c.write call).2.count 0 = c.count 0 + topStep c.listNestDepth call := by
  -- The element is counted in the list of the depth of the call.
  have hcount : call ≠ .listEnd → (if 0 = c.listNestDepth then c.count 0 + 1 else c.count 0)
      = c.count 0 + topStep c.listNestDepth call := by
    intro hne
    unfold topStep
    by_cases hzero : c.listNestDepth = 0
    · rw [if_pos hzero.symm, if_pos ⟨hzero, hne⟩]
    · rw [if_neg (Ne.symm hzero), if_neg fun hand => hzero hand.1, Nat.add_zero]
  rcases write_cases fun _ => sound_of_delivers h with ⟨e, c₁, -, -, -, he⟩ |
    ⟨v, r, hv, -, hc⟩ | ⟨rfl, -, -, -, hc⟩ | ⟨rfl, -, hc⟩
  · exact (h.not_error (he c.storage)).elim
  · have hne : call ≠ .listEnd := by
      rintro rfl
      cases hv
    have hnest : nestAfter c.listNestDepth call = c.listNestDepth := by
      cases call <;> first | rfl | cases hv
    rw [show c.write call = _ from hc c.storage, hnest]
    exact ⟨rfl, hcount hne⟩
  · rw [show c.write .listBegin = _ from hc c.storage]
    refine ⟨rfl, ?_⟩
    exact hcount (by decide)
  · have htop : topStep c.listNestDepth .listEnd = 0 := if_neg fun hand => hand.2 rfl
    rw [show c.write .listEnd = _ from hc c.storage, htop]
    exact ⟨rfl, rfl⟩

variable {frames : List Frame}

/-- What a run of calls that succeed does, in terms of the calls alone. -/
theorem Holds.runDelivers (hc : Holds c frames) (calls : List WriteCall)
    (h : RunAll Delivers c calls) (hcounts : CountsFit c calls) :
    RunAll Sound c calls ∧ c.delivered calls = calls.map WriteCall.element ∧
      (c.states calls).map listNestDepth = nestings c.listNestDepth calls ∧
      (c.writeAll calls).count 0 = c.count 0 + topLevel c.listNestDepth calls := by
  induction calls generalizing c frames with
  | nil => exact ⟨trivial, rfl, rfl, rfl⟩
  | cons call rest ih =>
    have hsound := sound_of_delivers h.1
    obtain ⟨mid, hmid⟩ := hc.write hsound (hcounts c mem_cons_self _ le_rfl)
    obtain ⟨hrest, hdelivered, hstates, hcount⟩ := ih hmid.holds h.2 hcounts.tail
    obtain ⟨hdepth, htop⟩ := write_delivers h.1
    refine ⟨⟨hsound, hrest⟩, ?_, ?_, ?_⟩
    · have hdeliver : deliver (c.write call).1 call = [call.element] := by
        have hok := h.1.1
        cases hresult : (c.write call).1 with
        | ok r => rfl
        | error e =>
          rw [hresult] at hok
          cases hok
      rw [delivered, hdeliver, hdelivered]
      rfl
    · rw [states, map_cons, hstates, hdepth]
      rfl
    · change ((c.write call).2.writeAll rest).count 0 = _
      rw [hcount, htop, hdepth, Nat.add_assoc]
      rfl

/-- No context of a run of sound calls is deeper than the writer allows. -/
theorem states_shallow (hc : Holds c frames) (calls : List WriteCall)
    (hsound : RunAll Sound c calls) (hcounts : CountsFit c calls) :
    ∀ c' ∈ c.states calls, c'.listNestDepth ≤ maxListNestDepth := by
  induction calls generalizing c frames with
  | nil => exact forall_mem_singleton.mpr hc.shallow
  | cons call rest ih =>
    obtain ⟨mid, hmid⟩ := hc.write hsound.1 (hcounts c mem_cons_self _ le_rfl)
    exact forall_mem_cons.mpr ⟨hc.shallow, ih hmid.holds hsound.2 hcounts.tail⟩

/-- The message of a run of sound calls, and when the reader gets through it. -/
theorem message_of_run {calls : List WriteCall} {w : Writer}
    (hrun : createAndroidLogger.writeAll calls = w)
    (hsound : RunAll Sound createAndroidLogger calls) (hclosed : w.listNestDepth = 0)
    (hcounts : CountsFit createAndroidLogger calls) :
    ∃ h bs, Encodes (w.count 0) h bs (createAndroidLogger.delivered calls) ∧
      w.writeListBuffer = .ok (messageBytes (w.count 0) bs) ∧
      (Reads (messageBytes (w.count 0) bs)
          (messageElements (w.count 0) (createAndroidLogger.delivered calls)) ↔
        1 ≤ w.count 0 ∧ (w.count 0 ≤ 1 ∨
          ∀ c ∈ createAndroidLogger.states calls, c.listNestDepth < maxListNestDepth)) := by
  subst hrun
  obtain ⟨frames, hholds, helements, hreach⟩ :=
    holds_createAndroidLogger.writeAll calls hsound hcounts
  obtain ⟨f, rfl⟩ := hholds.eq_singleton hclosed
  have hn : (createAndroidLogger.writeAll calls).count 0 = f.n := hholds.frames.1
  have helements : f.elements = createAndroidLogger.delivered calls := by
    simpa [Frame.allElements, Frame.empty] using helements
  have henc : Encodes f.n f.height f.bytes (createAndroidLogger.delivered calls) :=
    helements ▸ hholds.frames.2.2.1
  -- The height of the encoding is the greatest depth of the run.
  have hreach : ∀ b, f.height ≤ b ↔
      ∀ c ∈ createAndroidLogger.states calls, c.listNestDepth ≤ b := by
    intro b
    simpa [Frame.reach, Frame.empty] using hreach b
  have hmem : ∀ (c : Writer) (calls : List WriteCall), c.writeAll calls ∈ c.states calls := by
    intro c calls
    induction calls generalizing c with
    | nil => exact mem_singleton_self c
    | cons call rest ih => exact mem_cons_of_mem _ (ih _)
  have hfit : f.n ≤ 255 := hn ▸ hcounts _ (hmem _ calls) 0 (Nat.zero_le _)
  have hsize : (messageBytes f.n f.bytes).length ≤ maxEventPayload := by
    have hpos := hholds.pos
    have hfits := hholds.fits
    simp only [Frame.allBytes, nil_append, length_cons] at hpos
    unfold messageBytes
    split
    · omega
    · simp only [length_cons]
      omega
  have hheight : f.height ≤ maxListNestDepth := by
    refine (hreach _).mpr fun c hc => ?_
    exact states_shallow holds_createAndroidLogger calls hsound hcounts c hc
  rw [hn]
  refine ⟨f.height, f.bytes, henc, hholds.writeListBuffer, ?_⟩
  rw [reads_message_iff henc hfit hsize hheight]
  have hlt : ∀ d, d ≤ maxListNestDepth - 1 ↔ d < maxListNestDepth := by
    have : maxListNestDepth = 8 := rfl
    omega
  refine and_congr_right fun _ => or_congr_right ?_
  rw [Nat.succ_le_iff, ← hlt, hreach]
  simp [hlt]

/-! ### Calls that all succeed -/

/-- Calls that all succeed, with balanced lists of at most 255 elements each, are read back
exactly if there is one, and either there is only one element outside of all lists or the
lists are nested at most seven deep. -/
theorem eventList_roundTrip_iff (calls : List WriteCall)
    (hwritten : RunAll Delivers createAndroidLogger calls)
    (hclosed : (createAndroidLogger.writeAll calls).listNestDepth = 0)
    (hcounts : CountsFit createAndroidLogger calls) :
    ∃ msg, (createAndroidLogger.writeAll calls).writeListBuffer = .ok msg ∧
      (Reads msg (messageElements (topLevel 0 calls) (calls.map WriteCall.element)) ↔
        calls ≠ [] ∧ (topLevel 0 calls ≤ 1 ∨ ∀ d ∈ nestings 0 calls, d < maxListNestDepth)) := by
  obtain ⟨hsound, hdelivered, hstates, hcount⟩ :=
    holds_createAndroidLogger.runDelivers calls hwritten hcounts
  have hcount : (createAndroidLogger.writeAll calls).count 0 = topLevel 0 calls :=
    hcount.trans (Nat.zero_add _)
  have hstates : (createAndroidLogger.states calls).map listNestDepth
      = nestings 0 calls := hstates
  obtain ⟨h, bs, -, hmsg, hreads⟩ := message_of_run rfl hsound hclosed hcounts
  refine ⟨_, hmsg, ?_⟩
  rw [hdelivered, hcount] at hreads
  rw [hcount, hreads, ← hstates, forall_mem_map]
  refine and_congr_left fun _ => ?_
  -- The first call is made outside of all lists.
  cases calls with
  | nil => simp [topLevel]
  | cons call rest =>
    have hfirst : call ≠ .listEnd := by
      rintro rfl
      exact absurd hwritten.1.1 (by decide)
    have htop : topStep 0 call = 1 := if_pos ⟨rfl, hfirst⟩
    simp only [topLevel, ne_eq, reduceCtorEq, not_false_eq_true, iff_true]
    omega

instance (c : Writer) (call : WriteCall) : Decidable (Delivers c call) := by
  unfold Delivers
  cases call <;> infer_instance

instance RunAll.decidable (P : Writer → WriteCall → Prop) [∀ c call, Decidable (P c call)] :
    (c : Writer) → (calls : List WriteCall) → Decidable (RunAll P c calls)
  | _, [] => isTrue trivial
  | c, call :: rest =>
    have := RunAll.decidable P (c.write call).2 rest
    inferInstanceAs (Decidable (P c call ∧ RunAll P (c.write call).2 rest))

instance (c : Writer) (calls : List WriteCall) : Decidable (CountsFit c calls) :=
  inferInstanceAs (Decidable (∀ c' ∈ c.states calls, ∀ d ≤ c'.listNestDepth, c'.count d ≤ 255))

/-- A number, and a list with a string and an empty list. -/
def nestedCalls : List WriteCall :=
  [.int32 7, .listBegin, .string8Len [104, 105] 2, .listBegin, .listEnd, .listEnd]

theorem eventList_roundTrip_nestedCalls :
    ∃ msg, (createAndroidLogger.writeAll nestedCalls).writeListBuffer = .ok msg ∧
      Reads msg [.list, .int32 7, .list, .string [104, 105], .list, .listStop, .listStop,
        .listStop] := by
  obtain ⟨msg, hmsg, hreads⟩ :=
    eventList_roundTrip_iff nestedCalls (by decide) (by decide) (by decide)
  exact ⟨msg, hmsg, hreads.mpr (by decide)⟩

/-- A number, and eight lists in each other. -/
def deepCalls : List WriteCall :=
  .int32 7 :: (List.replicate 8 .listBegin ++ List.replicate 8 .listEnd)

/-- The message of these calls. -/
def deepMessage : List UInt8 :=
  [3, 2, 0, 7, 0, 0, 0, 3, 1, 3, 1, 3, 1, 3, 1, 3, 1, 3, 1, 3, 1, 3, 0]

/-- All the calls succeed, but the reader ends at the innermost list. -/
theorem deepCalls_not_read_back :
    RunAll Delivers createAndroidLogger deepCalls ∧
      (createAndroidLogger.writeAll deepCalls).listNestDepth = 0 ∧
      CountsFit createAndroidLogger deepCalls ∧
      (createAndroidLogger.writeAll deepCalls).writeListBuffer = .ok deepMessage ∧
      Reads deepMessage (.list :: .int32 7 :: List.replicate 8 .list) ∧
      ¬ Reads deepMessage
        (messageElements (topLevel 0 deepCalls) (deepCalls.map WriteCall.element)) := by
  have hreads : Reads deepMessage (.list :: .int32 7 :: replicate 8 .list) :=
    ⟨10, by decide +kernel⟩
  refine ⟨by decide +kernel, by decide +kernel, by decide +kernel, by decide +kernel, hreads, ?_⟩
  intro hback
  exact absurd (hreads.unique hback) (by decide)

/-- Calls that all succeed, with balanced lists of at most 255 elements each: the message is
an encoding of what was written, in which each list has the number of its elements. -/
theorem eventList_counts (calls : List WriteCall)
    (hwritten : RunAll Delivers createAndroidLogger calls)
    (hclosed : (createAndroidLogger.writeAll calls).listNestDepth = 0)
    (hcounts : CountsFit createAndroidLogger calls) :
    ∃ h bs, Encodes (topLevel 0 calls) h bs (calls.map WriteCall.element) ∧
      (createAndroidLogger.writeAll calls).writeListBuffer
        = .ok (messageBytes (topLevel 0 calls) bs) := by
  obtain ⟨hsound, hdelivered, -, hcount⟩ :=
    holds_createAndroidLogger.runDelivers calls hwritten hcounts
  have hcount : (createAndroidLogger.writeAll calls).count 0 = topLevel 0 calls :=
    hcount.trans (Nat.zero_add _)
  obtain ⟨h, bs, henc, hmsg, -⟩ := message_of_run rfl hsound hclosed hcounts
  rw [hdelivered, hcount] at henc
  rw [hcount] at hmsg
  exact ⟨h, bs, henc, hmsg⟩

theorem eventList_counts_nestedCalls :
    ∃ h bs, Encodes 2 h bs (nestedCalls.map WriteCall.element) ∧
      (createAndroidLogger.writeAll nestedCalls).writeListBuffer = .ok (messageBytes 2 bs) :=
  eventList_counts nestedCalls (by decide) (by decide) (by decide)

/-- The first bytes of a message of 256 numbers: the number of elements is zero. -/
theorem manyCalls_not_counted :
    RunAll Delivers createAndroidLogger (replicate 256 (.int32 7)) ∧
      ((createAndroidLogger.writeAll (replicate 256 (.int32 7))).writeListBuffer.toOption.map
        (take 3)) = some [3, 0, 0] := by
  decide +kernel

/-! ### Calls that may fail -/

/-- Calls of which some may fail leave a message with the elements of those that succeed,
which the reader consumes to its end. -/
theorem eventList_wellFormed (calls : List WriteCall)
    (hsound : RunAll Sound createAndroidLogger calls)
    (hclosed : (createAndroidLogger.writeAll calls).listNestDepth = 0)
    (hcounts : CountsFit createAndroidLogger calls)
    (hpos : 1 ≤ (createAndroidLogger.writeAll calls).count 0)
    (hdeep : (createAndroidLogger.writeAll calls).count 0 ≤ 1 ∨
      ∀ c ∈ createAndroidLogger.states calls, c.listNestDepth < maxListNestDepth) :
    ∃ n h bs, Encodes n h bs (createAndroidLogger.delivered calls) ∧
      (createAndroidLogger.writeAll calls).writeListBuffer = .ok (messageBytes n bs) ∧
      Reads (messageBytes n bs) (messageElements n (createAndroidLogger.delivered calls)) ∧
      Element.unknown ∉ messageElements n (createAndroidLogger.delivered calls) := by
  obtain ⟨h, bs, henc, hmsg, hreads⟩ := message_of_run rfl hsound hclosed hcounts
  refine ⟨_, h, bs, henc, hmsg, hreads.mpr ⟨hpos, hdeep⟩, ?_⟩
  have hmem := henc.unknown_not_mem
  unfold messageElements
  split
  · exact hmem
  · simpa using hmem

instance (c : Writer) (call : WriteCall) : Decidable (Sound c call) := by
  cases call <;> unfold Sound <;> infer_instance

/-- A number, a list with a string, and the end of a list that was not begun. What follows it is
not written. -/
def unbalancedCalls : List WriteCall :=
  [.int32 7, .listBegin, .string8Len [104, 105] 2, .listEnd, .listEnd, .int32 8]

/-- What is delivered of them. -/
def unbalancedElements : List Element := [.int32 7, .list, .string [104, 105], .listStop]

theorem eventList_wellFormed_unbalancedCalls :
    ∃ n h bs, Encodes n h bs unbalancedElements ∧
      (createAndroidLogger.writeAll unbalancedCalls).writeListBuffer
        = .ok (messageBytes n bs) ∧
      Reads (messageBytes n bs) (messageElements n unbalancedElements) ∧
      Element.unknown ∉ messageElements n unbalancedElements :=
  eventList_wellFormed unbalancedCalls (by decide) (by decide) (by decide) (by decide)
    (by decide)

/-- A list that is begun after an overflow. -/
def overflowCalls : List WriteCall := [.int32 7, .listEnd, .listBegin, .listEnd]

/-- The list is counted but not written, and the reader looks for it in vain. -/
theorem overflowCalls_unknown :
    (createAndroidLogger.writeAll overflowCalls).listNestDepth = 0 ∧
      CountsFit createAndroidLogger overflowCalls ∧
      (createAndroidLogger.writeAll overflowCalls).writeListBuffer
        = .ok [3, 2, 0, 7, 0, 0, 0] ∧
      Reads [3, 2, 0, 7, 0, 0, 0] [.list, .int32 7, .unknown] :=
  ⟨by decide, by decide, by decide +kernel, 3, by decide +kernel⟩

/-! ### The storage

A writer whose storage is arbitrary memory is compared with one whose storage is zero
(`Agree`): what the memory held is still there behind the payload, and nowhere in the message.
A string that is truncated breaks this, since the position goes on by its whole length. -/

/-- The call truncates no string. -/
def Untruncated (c : Writer) (call : WriteCall) : Prop := call ≠ .listBegin → Sound c call

/-- `create_android_logger`, in memory that is not zero. -/
def createIn (memory : Storage) : Writer :=
  createAndroidLogger.on (store memory 0 [eventTypeList])

/-- A context, and the storage that it would have if it had been created in `memory`. Only the
byte for the elements of the outermost list is not written yet. -/
structure Agree (memory : Storage) (c : Writer) (s : Storage) : Prop where
  pos_ge : 2 ≤ c.pos
  pos_le : c.pos ≤ maxEventPayload
  list_lt : ∀ d, c.list d < c.pos
  bytes : ∀ i, i ≠ 1 → i < c.pos → s i = c.storage i
  outside : ∀ i, maxEventPayload ≤ i → s i = memory i

variable {memory s : Storage}

/-- Bytes are stored inside the message, or at its end. -/
theorem Agree.store (h : Agree memory c s) (c₁ : Writer) {at' : Nat} {bytes : List UInt8}
    (hpos : c₁.pos = c.pos ∧ at' + bytes.length ≤ c.pos ∨
      at' = c.pos ∧ c₁.pos = c.pos + bytes.length)
    (hmax : c₁.pos ≤ maxEventPayload) (hlist : ∀ d, c₁.list d < c₁.pos) :
    Agree memory (c₁.on (store c.storage at' bytes)) (store s at' bytes) := by
  have hge := h.pos_ge
  refine ⟨?_, hmax, hlist, fun i hi hlt => ?_, fun i hi => ?_⟩
  · change 2 ≤ c₁.pos
    omega
  · change i < c₁.pos at hlt
    change _ = Liblog.store c.storage at' bytes i
    unfold Liblog.store
    split
    · rfl
    · exact h.bytes i hi (by omega)
  · unfold Liblog.store
    rw [if_neg (by omega)]
    exact h.outside i hi

/-- A call does the same in both memories. -/
theorem Agree.write (h : Agree memory c s) (hcall : Untruncated c call) :
    ∃ s', ((c.on s).write call).2 = (c.write call).2.on s' ∧ Agree memory (c.write call).2 s' := by
  have hle := h.pos_le
  rcases write_cases hcall with ⟨e, c₁, hpos, hlist, -, he⟩ | ⟨v, r, -, hfits, hr⟩ |
    ⟨rfl, hroom, -, -, hr⟩ | ⟨rfl, -, hr⟩
  · rw [he s, show c.write call = _ from he c.storage]
    refine ⟨s, rfl, hpos ▸ h.pos_ge, hpos ▸ hle, fun d => ?_, fun i hi hlt => ?_, h.outside⟩
    · change c₁.list d < c₁.pos
      rw [hpos, hlist]
      exact h.list_lt d
    · exact h.bytes i hi (hpos ▸ hlt)
  · rw [hr s, show c.write call = _ from hr c.storage]
    exact ⟨_, rfl, h.store (c.append v.bytes) (.inr ⟨rfl, rfl⟩) hfits
      fun d => Nat.lt_of_lt_of_le (h.list_lt d) (Nat.le_add_right _ _)⟩
  · rw [hr s, show c.write .listBegin = _ from hr c.storage]
    refine ⟨_, rfl, h.store c.opened (.inr ⟨rfl, rfl⟩) hroom fun d => ?_⟩
    change (if d = _ then c.pos + 1 else c.list d) < c.pos + 2
    have hlt := h.list_lt d
    split <;> omega
  · rw [hr s, show c.write .listEnd = _ from hr c.storage]
    exact ⟨_, rfl, h.store c.closed (.inl ⟨rfl, h.list_lt _⟩) hle h.list_lt⟩

/-- All calls. -/
theorem Agree.writeAll (h : Agree memory c s) (calls : List WriteCall)
    (hcalls : RunAll Untruncated c calls) :
    ∃ s', (c.on s).writeAll calls = (c.writeAll calls).on s' ∧
      Agree memory (c.writeAll calls) s' := by
  induction calls generalizing c s with
  | nil => exact ⟨s, rfl, h⟩
  | cons call calls ih =>
    obtain ⟨s', heq, h'⟩ := h.write hcalls.1
    obtain ⟨s'', hrun, h''⟩ := ih h' hcalls.2
    rw [← heq] at hrun
    exact ⟨s'', hrun, h''⟩

/-- After every sequence of calls that truncate no string, in memory that held anything, the
position is within the payload, nothing behind the payload has been written, and the message
is the one of a storage that was zero: no byte of it is left over. -/
theorem writeAll_inside (memory : Storage) (calls : List WriteCall)
    (h : RunAll Untruncated createAndroidLogger calls) :
    ((createIn memory).writeAll calls).pos ≤ maxEventPayload ∧
      (∀ i, maxEventPayload ≤ i → ((createIn memory).writeAll calls).storage i = memory i) ∧
      ((createIn memory).writeAll calls).writeListBuffer =
        (createAndroidLogger.writeAll calls).writeListBuffer := by
  have hstart : Agree memory createAndroidLogger (store memory 0 [eventTypeList]) := by
    refine ⟨by decide, by decide, fun d => ?_, fun i hi hlt => ?_, fun i hi => ?_⟩
    · change (if d = 0 then 1 else 0) < 2
      split <;> omega
    · obtain rfl : i = 0 := by
        change i < 2 at hlt
        omega
      rfl
    · have hpay : maxEventPayload = 4064 := rfl
      unfold store
      rw [if_neg (by simp; omega)]
  obtain ⟨s, hrun, hs⟩ := hstart.writeAll calls h
  have hrun : (createIn memory).writeAll calls = _ := hrun
  rw [hrun]
  refine ⟨hs.pos_le, hs.outside, ?_⟩
  generalize createAndroidLogger.writeAll calls = c at hs
  have hge := hs.pos_ge
  -- the byte for the elements of the outermost list is stored now
  have hslice : ∀ pos len, pos + len ≤ c.pos →
      slice (store s 1 [UInt8.ofNat (c.count 0)]) pos len =
        slice (store c.storage 1 [UInt8.ofNat (c.count 0)]) pos len := by
    intro pos len hlen
    refine slice_congr fun i hi => ?_
    unfold store
    split
    · rfl
    · exact hs.bytes _ (by simp at *; omega) (by omega)
  unfold writeListBuffer Writer.on
  dsimp only
  rw [hslice 2 _ (by omega), hslice 0 _ (by omega)]

theorem writeAll_inside_twoCalls :
    ((createIn fun _ => 7).writeAll [.int32 5, .string8Len [65, 66] 2]).pos ≤ maxEventPayload :=
  (writeAll_inside (fun _ => 7) [.int32 5, .string8Len [65, 66] 2]
    ⟨fun _ => trivial, fun _ _ => .inl (by decide +kernel), trivial⟩).1

/-- The string is cut to 4057 bytes, but the position goes on by all of it: past the 4068
bytes of the storage. -/
theorem writeAll_longString_outside :
    (createAndroidLogger.writeAll [.string8Len (replicate 4064 65) 4064]).pos = 4071 := by
  decide +kernel

end AndroidCore.Liblog
