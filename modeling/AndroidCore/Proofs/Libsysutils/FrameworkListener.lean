import AndroidCore.Lib.Pieces
import AndroidCore.Libsysutils.FrameworkListener

/-!
# `AndroidCore.Proofs.Libsysutils.FrameworkListener`: which commands a listener dispatches

A read that ends with a zero byte hands its pieces to `dispatchCommand`, without the first
of them when `mSkipToNextNullByte` is set. Any other read hands over nothing and sets the
flag. So the flag alone connects one read to the next (`run_commands`), whichever clients
they come from.

* `dispatched_eq_iff` is about one client: the commands of a stream are dispatched, each
  once and in order, exactly when no read ends inside of a command.
* `reads_eq_alone_iff` is about the clients of one listener: a client gets the same
  commands dispatched as without the others exactly when the flag is the same at each of
  its reads that end with a zero byte.
-/

namespace AndroidCore.Libsysutils

open Lib List

namespace FrameworkListener

variable {Client : Type}

/-! ### One read -/

/-- The strings that a read hands to `dispatchCommand`, with the flag before it. -/
def readCommands (skip : Bool) (buffer : List UInt8) : List (List UInt8) :=
  if buffer.getLast? ≠ some 0 then []
  else if skip then (segments 0 [] buffer).tail
  else segments 0 [] buffer

/-- The flag after a read. -/
def skipAfter (skip : Bool) (buffer : List UInt8) : Bool :=
  if buffer = [] then skip else buffer.getLast? ≠ some 0

variable {buffer : List UInt8} {skip : Bool}

theorem readCommands_terminated (h : buffer.getLast? = some 0) :
    readCommands skip buffer
      = if skip then (segments 0 [] buffer).tail else segments 0 [] buffer := by
  rw [readCommands, if_neg (not_not.mpr h)]

theorem skipAfter_terminated (h : buffer.getLast? = some 0) : skipAfter skip buffer = false := by
  have hne : buffer ≠ [] := by
    rintro rfl
    simp at h
  simp [skipAfter, hne, h]

theorem skipAfter_open (hne : buffer ≠ []) (h : buffer.getLast? ≠ some 0) :
    skipAfter skip buffer = true := by
  simp [skipAfter, hne, h]

variable (l : FrameworkListener)

theorem dispatchCommand_skip (data : List UInt8) :
    (l.dispatchCommand data).1.mSkipToNextNullByte = l.mSkipToNextNullByte := by
  unfold dispatchCommand
  cases Parse.parse l.mWithSeq data with
  | error effects => rfl
  | ok s =>
    show (if _ then _ else _ : FrameworkListener × List Effect).1.mSkipToNextNullByte = _
    split
    · show (if _ then _ else _ : FrameworkListener × List Effect).1.mSkipToNextNullByte = _
      split <;> rfl
    · rfl

/-- The loop over a buffer drops the first string when the flag is set. -/
theorem dispatchLoop_commands (cur buffer : List UInt8) :
    (l.dispatchLoop cur buffer).2.map Prod.fst
        = (if l.mSkipToNextNullByte then (segments 0 cur buffer).tail
          else segments 0 cur buffer) ∧
      (l.dispatchLoop cur buffer).1.mSkipToNextNullByte = false := by
  induction buffer generalizing l cur with
  | nil => exact ⟨by simp [dispatchLoop, segments], rfl⟩
  | cons b rest ih =>
    rw [dispatchLoop, segments]
    by_cases hb : b = 0
    · rw [if_pos hb, if_pos hb]
      by_cases hskip : l.mSkipToNextNullByte = true
      · rw [if_pos hskip, if_pos hskip]
        exact ih _ []
      · rw [if_neg hskip, if_neg hskip]
        obtain ⟨hcommands, hflag⟩ := ih (l.dispatchCommand cur).1 []
        rw [dispatchCommand_skip, if_neg hskip] at hcommands
        exact ⟨congrArg (cur :: ·) hcommands, hflag⟩
    · rw [if_neg hb, if_neg hb]
      exact ih l (cur ++ [b])

/-- What a read hands over, and the flag it leaves. -/
theorem onDataAvailable_commands (buffer : List UInt8) :
    (l.onDataAvailable buffer).2.1.commands = readCommands l.mSkipToNextNullByte buffer ∧
      (l.onDataAvailable buffer).1.mSkipToNextNullByte
        = skipAfter l.mSkipToNextNullByte buffer := by
  unfold onDataAvailable
  by_cases hnil : buffer = []
  · subst hnil
    exact ⟨rfl, rfl⟩
  rw [if_neg hnil]
  by_cases hlast : buffer.getLast? = some 0
  · rw [if_neg (not_not.mpr hlast), readCommands_terminated hlast, skipAfter_terminated hlast]
    exact l.dispatchLoop_commands [] buffer
  · rw [if_pos hlast, skipAfter_open hnil hlast, readCommands, if_pos hlast]
    exact ⟨rfl, rfl⟩

/-! ### A sequence of reads -/

/-- The strings of every read of a sequence, with the flag before the first. -/
def commandsFrom (skip : Bool) : List (Client × List UInt8) → List (Client × List (List UInt8))
  | [] => []
  | (c, buffer) :: reads =>
    (c, readCommands skip buffer) :: commandsFrom (skipAfter skip buffer) reads

/-- The strings of every read of a run are determined by the flag. -/
theorem run_commands (reads : List (Client × List UInt8)) :
    (l.run reads).map (fun r => (r.1, r.2.commands))
      = commandsFrom l.mSkipToNextNullByte reads := by
  induction reads generalizing l with
  | nil => rfl
  | cons read reads ih =>
    obtain ⟨hcommands, hskip⟩ := l.onDataAvailable_commands read.2
    show (read.1, (l.onDataAvailable read.2).2.1.commands) ::
        ((l.onDataAvailable read.2).1.run reads).map _ = _
    rw [ih, hcommands, hskip]
    rfl

/-! ### One client -/

/-- The commands that the reads of one client dispatch. -/
def dispatched (l : FrameworkListener) (chunks : List (List UInt8)) : List (List UInt8) :=
  (l.run (chunks.map fun chunk => ((), chunk))).flatMap fun r => r.2.commands

/-- The commands of the reads of one client, with the flag before the first. -/
def dispatchedFrom : Bool → List (List UInt8) → List (List UInt8)
  | _, [] => []
  | skip, chunk :: chunks =>
    readCommands skip chunk ++ dispatchedFrom (skipAfter skip chunk) chunks

theorem dispatched_eq (chunks : List (List UInt8)) :
    l.dispatched chunks = dispatchedFrom l.mSkipToNextNullByte chunks := by
  have hflat : ∀ (skip : Bool), (commandsFrom skip (chunks.map fun chunk => ((), chunk))).flatMap
      Prod.snd = dispatchedFrom skip chunks := by
    induction chunks with
    | nil => intro skip; rfl
    | cons chunk chunks ih =>
      intro skip
      show readCommands skip chunk ++ flatMap _ _ = _
      rw [ih]
      rfl
  rw [← hflat, ← run_commands, flatMap_map]
  rfl

variable {chunks : List (List UInt8)}

/-- Reads that all end with a zero byte dispatch the pieces of the stream. -/
theorem dispatchedFrom_terminated (h : ∀ chunk ∈ chunks, chunk.getLast? = some 0) :
    dispatchedFrom false chunks = segments 0 [] chunks.flatten := by
  induction chunks with
  | nil => rfl
  | cons chunk chunks ih =>
    have hchunk := h chunk mem_cons_self
    have hrest : ∀ c ∈ chunks, c.getLast? = some 0 :=
      fun c hc => h c (mem_cons_of_mem chunk hc)
    rw [dispatchedFrom, readCommands_terminated hchunk, skipAfter_terminated hchunk, ih hrest,
      flatten_cons, segments_append hchunk]
    rfl

/-- A read loses a string for each terminator it has and does not hand over. -/
theorem length_readCommands_le (skip : Bool) (chunk : List UInt8) :
    (readCommands skip chunk).length ≤ chunk.count 0 := by
  by_cases hlast : chunk.getLast? = some 0
  · rw [readCommands_terminated hlast, ← length_segments 0 [] chunk]
    cases skip with
    | true => exact length_tail ▸ Nat.sub_le _ 1
    | false => exact Nat.le_refl _
  · rw [readCommands, if_pos hlast]
    exact Nat.zero_le _

theorem length_dispatchedFrom_le (skip : Bool) (chunks : List (List UInt8)) :
    (dispatchedFrom skip chunks).length ≤ chunks.flatten.count 0 := by
  induction chunks generalizing skip with
  | nil => exact Nat.le_refl 0
  | cons chunk chunks ih =>
    rw [dispatchedFrom, length_append, flatten_cons, count_append]
    exact Nat.add_le_add (length_readCommands_le skip chunk) (ih _)

/-- A stream that ends with a zero byte loses a string when the flag is set at its start, or when
a read ends inside of one. -/
theorem length_dispatchedFrom_lt {skip : Bool} (hne : ∀ chunk ∈ chunks, chunk ≠ [])
    (hend : chunks.flatten.getLast? = some 0)
    (hloss : skip = true ∨ ∃ chunk ∈ chunks, chunk.getLast? ≠ some 0) :
    (dispatchedFrom skip chunks).length < chunks.flatten.count 0 := by
  induction chunks generalizing skip with
  | nil => simp at hend
  | cons chunk chunks ih =>
    have hrest : ∀ c ∈ chunks, c ≠ [] := fun c hc => hne c (mem_cons_of_mem chunk hc)
    have hflatten : chunks.flatten ≠ [] → chunks.flatten.getLast? = some 0 := by
      intro hne'
      rwa [flatten_cons, getLast?_append_of_ne_nil _ hne'] at hend
    rw [dispatchedFrom, length_append, flatten_cons, count_append]
    have hread := length_readCommands_le skip chunk
    by_cases hlast : chunk.getLast? = some 0
    · rcases hloss with rfl | ⟨c, hc, hopen⟩
      · -- the first string of this read is dropped
        have hpos := length_segments_pos hlast []
        have hle := length_dispatchedFrom_le (skipAfter true chunk) chunks
        rw [readCommands_terminated hlast, if_pos rfl, length_tail]
        rw [← length_segments 0 [] chunk]
        omega
      · -- the loss is in the reads behind
        have hc' : c ∈ chunks := (mem_cons.mp hc).resolve_left fun heq => hopen (heq ▸ hlast)
        have hlt : (dispatchedFrom (skipAfter skip chunk) chunks).length < _ := ih hrest
          (hflatten fun hnil => hrest c hc' (flatten_eq_nil_iff.mp hnil c hc'))
          (.inr ⟨c, hc', hopen⟩)
        omega
    · -- the flag is set behind this read
      have hlt : (dispatchedFrom true chunks).length < _ := ih hrest
        (hflatten fun hnil => hlast (by rwa [flatten_cons, hnil, append_nil] at hend)) (.inl rfl)
      rw [skipAfter_open (hne chunk mem_cons_self) hlast]
      omega

/-- A stream of zero-terminated commands, cut into non-empty reads of at most the size of the
buffer: the commands are dispatched, each once and in order, exactly when every read ends
with the terminator of a command. -/
theorem dispatched_eq_iff (l : FrameworkListener) (commands chunks : List (List UInt8))
    (hfresh : l.mSkipToNextNullByte = false)
    (hcommands : ∀ c ∈ commands, 0 ∉ c ∧ c.length < cmdBufSize)
    (hchunks : ∀ chunk ∈ chunks, chunk ≠ [] ∧ chunk.length ≤ cmdBufSize)
    (hstream : chunks.flatten = commands.flatMap (· ++ [0])) :
    l.dispatched chunks = commands ↔ ∀ chunk ∈ chunks, chunk.getLast? = some 0 := by
  have hsegments : segments 0 [] chunks.flatten = commands := by
    rw [hstream]
    exact segments_flatMap fun c hc => (hcommands c hc).1
  rw [dispatched_eq, hfresh]
  constructor
  · intro heq
    by_contra hnot
    push Not at hnot
    have hne : ∀ chunk ∈ chunks, chunk ≠ [] := fun chunk hc => (hchunks chunk hc).1
    have hend : chunks.flatten.getLast? = some 0 := by
      obtain ⟨chunk, hchunk, -⟩ := hnot
      have hne' : commands ≠ [] := by
        rintro rfl
        exact hne chunk hchunk (flatten_eq_nil_iff.mp hstream chunk hchunk)
      rw [hstream, ← dropLast_concat_getLast hne', flatMap_append,
        flatMap_singleton, ← append_assoc, getLast?_concat]
    -- one string for each terminator would be too many
    have hlt : (dispatchedFrom false chunks).length < _ :=
      length_dispatchedFrom_lt hne hend (.inr hnot)
    rw [heq, ← length_segments 0 [] chunks.flatten, hsegments] at hlt
    exact Nat.lt_irrefl _ hlt
  · intro hterminated
    rw [dispatchedFrom_terminated hterminated, hsegments]

/-- Two reads, of two commands and of one. -/
theorem dispatched_eq_iff_twoReads :
    (init false []).dispatched [[0x61, 0, 0x62, 0], [0x63, 0]] = [[0x61], [0x62], [0x63]] :=
  (dispatched_eq_iff (init false []) [[0x61], [0x62], [0x63]] [[0x61, 0, 0x62, 0], [0x63, 0]]
    rfl (by decide) (by decide) rfl).mpr (by decide)

/-- The command `hi` in two reads is not dispatched. -/
theorem splitCommand_not_dispatched :
    (init false []).dispatched [[0x68], [0x69, 0]] ≠ [[0x68, 0x69]] := by decide

/-! ### Several clients -/

section Clients

variable [DecidableEq Client]

/-- The commands that each read of a client dispatches. -/
def readsOf (l : FrameworkListener) (a : Client) (reads : List (Client × List UInt8)) :
    List (List (List UInt8)) :=
  ((l.run reads).filter fun r => r.1 = a).map fun r => r.2.commands

/-- What each read of a client leads to. -/
def tracesOf (l : FrameworkListener) (a : Client) (reads : List (Client × List UInt8)) :
    List ReadTrace :=
  ((l.run reads).filter fun r => r.1 = a).map Prod.snd

/-- The reads of one client. -/
def only (a : Client) (reads : List (Client × List UInt8)) : List (Client × List UInt8) :=
  reads.filter fun r => r.1 = a

/-- The flag after a sequence of reads. -/
def skipAfterAll (skip : Bool) (reads : List (Client × List UInt8)) : Bool :=
  reads.foldl (fun skip r => skipAfter skip r.2) skip

/-- At every read of the client that ends with a zero byte, the flag that all reads have left
is the flag that the reads of the client alone would have left. -/
def Undisturbed (a : Client) (all own : Bool) (reads : List (Client × List UInt8)) : Prop :=
  ∀ before chunk after, reads = before ++ (a, chunk) :: after → chunk.getLast? = some 0 →
    skipAfterAll all before = skipAfterAll own (only a before)

theorem only_cons_self (a : Client) (chunk : List UInt8) (reads : List (Client × List UInt8)) :
    only a ((a, chunk) :: reads) = (a, chunk) :: only a reads := by
  simp [only]

variable {a : Client}

theorem only_cons_of_ne {c : Client} (hc : c ≠ a) (chunk : List UInt8)
    (reads : List (Client × List UInt8)) : only a ((c, chunk) :: reads) = only a reads := by
  simp [only, hc]

variable {all own : Bool} {chunk : List UInt8} {reads : List (Client × List UInt8)}

/-- The condition, from a read on. -/
theorem undisturbed_cons {c : Client} :
    Undisturbed a all own ((c, chunk) :: reads) ↔
      (c = a → chunk.getLast? = some 0 → all = own) ∧
        Undisturbed a (skipAfter all chunk) (if c = a then skipAfter own chunk else own) reads := by
  have honly : ∀ before, skipAfterAll own (only a ((c, chunk) :: before))
      = skipAfterAll (if c = a then skipAfter own chunk else own) (only a before) := by
    intro before
    by_cases hc : c = a
    · rw [if_pos hc, hc, only_cons_self]
      rfl
    · rw [if_neg hc, only_cons_of_ne hc]
  constructor
  · intro h
    refine ⟨?_, fun before chunk' after hreads hlast => ?_⟩
    · rintro rfl
      exact h [] chunk reads rfl
    · rw [← honly]
      exact h ((c, chunk) :: before) chunk' after (by rw [hreads]; rfl) hlast
  · rintro ⟨hhead, htail⟩ before chunk' after hreads hlast
    cases before with
    | nil =>
      obtain ⟨⟨rfl, rfl⟩, -⟩ : (c = a ∧ chunk = chunk') ∧ reads = after := by simpa using hreads
      exact hhead rfl hlast
    | cons read before =>
      obtain ⟨rfl, rfl⟩ : (c, chunk) = read ∧ reads = before ++ (a, chunk') :: after := by
        simpa using hreads
      rw [honly]
      exact htail before chunk' after rfl hlast

/-- A read hands over the same with two flags only if it hands over nothing or the flags are
the same. -/
theorem readCommands_inj :
    readCommands all chunk = readCommands own chunk ↔
      (chunk.getLast? = some 0 → all = own) := by
  constructor
  · intro heq hlast
    rw [readCommands_terminated hlast, readCommands_terminated hlast] at heq
    have hpos := length_segments_pos hlast []
    have hlength := congrArg length heq
    cases all <;> cases own <;> simp at hlength ⊢ <;> omega
  · intro h
    by_cases hlast : chunk.getLast? = some 0
    · rw [h hlast]
    · rw [readCommands, if_pos hlast, readCommands, if_pos hlast]

theorem readsOf_eq (l : FrameworkListener) (a : Client) (reads : List (Client × List UInt8)) :
    l.readsOf a reads
      = ((commandsFrom l.mSkipToNextNullByte reads).filter fun r => r.1 = a).map Prod.snd := by
  rw [← run_commands, filter_map, map_map]
  rfl

theorem commandsFrom_alone_iff (a : Client) (all own : Bool) (reads : List (Client × List UInt8)) :
    ((commandsFrom all reads).filter fun r => r.1 = a).map Prod.snd
        = ((commandsFrom own (only a reads)).filter fun r => r.1 = a).map Prod.snd ↔
      Undisturbed a all own reads := by
  induction reads generalizing all own with
  | nil => simp [only, commandsFrom, Undisturbed]
  | cons read reads ih =>
    obtain ⟨c, chunk⟩ := read
    by_cases hc : c = a
    · subst hc
      rw [only_cons_self, undisturbed_cons, ← ih, ← readCommands_inj]
      simp [commandsFrom]
    · rw [only_cons_of_ne hc, undisturbed_cons, ← ih]
      simp [commandsFrom, hc]

/-- The listener with another flag. -/
def withSkip (l : FrameworkListener) (skip : Bool) : FrameworkListener :=
  { l with mSkipToNextNullByte := skip }

variable {l : FrameworkListener}

section

variable (hrate : l.errorRate = 0)
include hrate

/-- Without `errorRate` the effects of a command depend on its text alone. -/
theorem dispatchCommand_withSkip (skip : Bool) (data : List UInt8) :
    (l.withSkip skip).dispatchCommand data = (l.withSkip skip, (l.dispatchCommand data).2) := by
  have hseq : (l.withSkip skip).mWithSeq = l.mWithSeq := rfl
  have hrate' : (l.withSkip skip).errorRate = 0 := hrate
  unfold dispatchCommand
  rw [hseq]
  cases Parse.parse l.mWithSeq data with
  | error effects => rfl
  | ok s =>
    simp only [hrate, hrate']
    rfl

/-- What a read leads to without `errorRate`. -/
def readTrace (l : FrameworkListener) (skip : Bool) (buffer : List UInt8) : ReadTrace where
  dispatched := (readCommands skip buffer).map fun c => (c, (l.dispatchCommand c).2)
  effects := if buffer = [] ∨ buffer.getLast? = some 0 then []
    else [.sendMsg 500 "Command too large for buffer"]

theorem dispatchLoop_withSkip (skip : Bool) (cur buffer : List UInt8) :
    (l.withSkip skip).dispatchLoop cur buffer
      = (l.withSkip false,
        (if skip then (segments 0 cur buffer).tail else segments 0 cur buffer).map
          fun c => (c, (l.dispatchCommand c).2)) := by
  induction buffer generalizing skip cur with
  | nil => cases skip <;> rfl
  | cons b rest ih =>
    rw [dispatchLoop, segments]
    by_cases hb : b = 0
    · rw [if_pos hb, if_pos hb]
      cases skip with
      | true => exact ih false []
      | false =>
        show ((((l.withSkip false).dispatchCommand cur).1.dispatchLoop [] rest).1,
          (cur, ((l.withSkip false).dispatchCommand cur).2) ::
            (((l.withSkip false).dispatchCommand cur).1.dispatchLoop [] rest).2) = _
        rw [dispatchCommand_withSkip hrate, ih false []]
        rfl
    · rw [if_neg hb, if_neg hb]
      exact ih skip (cur ++ [b])

theorem onDataAvailable_withSkip (skip : Bool) (buffer : List UInt8) :
    ((l.withSkip skip).onDataAvailable buffer).1 = l.withSkip (skipAfter skip buffer) ∧
      ((l.withSkip skip).onDataAvailable buffer).2.1 = l.readTrace skip buffer := by
  unfold onDataAvailable
  by_cases hnil : buffer = []
  · subst hnil
    exact ⟨rfl, rfl⟩
  rw [if_neg hnil]
  by_cases hlast : buffer.getLast? = some 0
  · have hquiet : buffer = [] ∨ buffer.getLast? = some 0 := .inr hlast
    rw [if_neg (not_not.mpr hlast), dispatchLoop_withSkip hrate, skipAfter_terminated hlast,
      readTrace, readCommands_terminated hlast]
    simp [if_pos hquiet]
  · have hboth : ¬ (buffer = [] ∨ buffer.getLast? = some 0) := not_or.mpr ⟨hnil, hlast⟩
    rw [if_pos hlast, skipAfter_open hnil hlast, readTrace, readCommands, if_pos hlast,
      if_neg hboth]
    exact ⟨rfl, rfl⟩

omit [DecidableEq Client] in
theorem run_withSkip_cons (skip : Bool) (c : Client) (chunk : List UInt8)
    (reads : List (Client × List UInt8)) :
    (l.withSkip skip).run ((c, chunk) :: reads)
      = (c, l.readTrace skip chunk) :: (l.withSkip (skipAfter skip chunk)).run reads := by
  obtain ⟨hskip, htrace⟩ := onDataAvailable_withSkip hrate skip chunk
  rw [← hskip, ← htrace]
  rfl

omit hrate in
/-- A read that the flags do not tell apart leads to the same. -/
theorem readTrace_congr (l : FrameworkListener) (h : chunk.getLast? = some 0 → all = own) :
    l.readTrace all chunk = l.readTrace own chunk := by
  rw [readTrace, readTrace, readCommands_inj.mpr h]

/-- Without `errorRate`, an undisturbed client also gets the same answers, and the same
commands are run for it. -/
theorem tracesOf_alone (a : Client) (h : Undisturbed a all own reads) :
    (l.withSkip all).tracesOf a reads = (l.withSkip own).tracesOf a (only a reads) := by
  induction reads generalizing all own with
  | nil => rfl
  | cons read reads ih =>
    obtain ⟨c, chunk⟩ := read
    by_cases hc : c = a
    · subst hc
      obtain ⟨hhead, htail⟩ := undisturbed_cons.mp h
      have hrest := ih htail
      unfold tracesOf at hrest ⊢
      rw [only_cons_self, run_withSkip_cons hrate, run_withSkip_cons hrate,
        readTrace_congr l (hhead rfl)]
      simpa using hrest
    · have hrest := (undisturbed_cons.mp h).2
      have hrest := ih hrest
      unfold tracesOf at hrest ⊢
      rw [only_cons_of_ne hc, run_withSkip_cons hrate]
      simpa [hc] using hrest

end

/-- A client gets the same commands dispatched, read by read, as without the other clients,
exactly when it is undisturbed. Then, without `errorRate`, it also gets the same answers and
the same commands are run. -/
theorem reads_eq_alone_iff (l : FrameworkListener) (a : Client)
    (reads : List (Client × List UInt8)) :
    (l.readsOf a reads = l.readsOf a (only a reads) ↔
        Undisturbed a l.mSkipToNextNullByte l.mSkipToNextNullByte reads) ∧
      (l.errorRate = 0 →
        Undisturbed a l.mSkipToNextNullByte l.mSkipToNextNullByte reads →
        l.tracesOf a reads = l.tracesOf a (only a reads)) := by
  constructor
  · rw [readsOf_eq, readsOf_eq]
    exact commandsFrom_alone_iff a _ _ reads
  · intro hrate h
    exact tracesOf_alone hrate a h

/-- The command of one client is lost behind a read of another that ends inside of a
command. -/
theorem otherClient_disturbs :
    (init false []).readsOf false [(true, [0x62]), (false, [0x61, 0])]
      ≠ (init false []).readsOf false (only false [(true, [0x62]), (false, [0x61, 0])]) := by
  decide

end Clients

end FrameworkListener

end AndroidCore.Libsysutils
