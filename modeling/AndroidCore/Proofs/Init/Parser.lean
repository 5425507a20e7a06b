import AndroidCore.Init.Parser
import AndroidCore.Proofs.Init.Tokenizer

/-!
# `AndroidCore.Proofs.Init.Parser`: which calls `ParseData` makes

A line adds some calls to the log: the end of the section that was open, if the line closes it, and
then at most one delivery (`Single`). The exception is a line that goes to a line callback. `args`
is read again after the callback, which has had it by reference, and what the callback left there
decides what happens next: nothing, a second delivery of the line, or a read from an empty vector.

So the calls are as they should be exactly when every line callback leaves words that have no
further effect (`wellBracketed_iff`). The loop ends for every text, since every token is progress.
-/

namespace AndroidCore.Init.Parser

open Lib Tokenizer List Transitions

section Line

variable {world : World} {parsers : Parsers} {filename : Text} {line : Nat} {p q : Parse}

/-! ### The end of a section -/

/-- The calls that `endSection` adds. -/
def closing (world : World) (p : Parse) : List Entry :=
  match p.sectionParser with
  | none => []
  | some name => [⟨p.lines.length, .endSection name, world p.log (.endSection name)⟩]

theorem endSection_eq : endSection world p = { p with log := p.log ++ closing world p } := by
  obtain ⟨current, args, log, lines⟩ := p
  cases current <;> simp [endSection, closing, call]

theorem run_closing : run bracket p.sectionParser (closing world p) = some none := by
  cases hs : p.sectionParser <;> simp [closing, hs, bracket, run_cons]

variable {e : Entry}

theorem args?_of_mem_closing (he : e ∈ closing world p) : e.call.args? = none := by
  cases hs : p.sectionParser <;> simp [closing, hs] at he
  rw [he]
  rfl

theorem inert_of_mem_closing (he : e ∈ closing world p) : e.Inert parsers := by
  intro pre args hcall
  have hnone := args?_of_mem_closing he
  rw [hcall] at hnone
  cases hnone

/-! ### The calls for one line -/

/-- The calls `new` for the line `p.args` take the section that is open to `s`, and deliver the
line at most once. -/
structure Single (p : Parse) (new : List Entry) (s : Option Text) : Prop where
  run : run bracket p.sectionParser new = some s
  once : new.countP (fun e => e.call.args?.isSome) ≤ 1
  words : ∀ e ∈ new, ∀ args, e.call.args? = some args → e.line = p.lines.length ∧ args = p.args

/-- What was open is closed, and then the line is delivered. -/
theorem single_closing_concat {s : Option Text} (hs : bracket none e = some s)
    (hline : e.line = p.lines.length) (hargs : e.call.args? = some p.args) :
    Single p (closing world p ++ [e]) s where
  run := by
    rw [run_append, run_closing]
    simp [run_cons, hs]
  once := by
    have hclosing : (closing world p).countP (fun e => e.call.args?.isSome) = 0 :=
      countP_eq_zero.mpr fun e he => by simp [args?_of_mem_closing he]
    rw [countP_append, hclosing]
    exact Nat.le_trans (Nat.le_of_eq (Nat.zero_add _)) countP_le_length
  words := by
    intro d hd args hdargs
    rcases mem_append.mp hd with hd | hd
    · rw [args?_of_mem_closing hd] at hdargs
      cases hdargs
    · rw [mem_singleton.mp hd] at hdargs ⊢
      exact ⟨hline, Option.some.inj (hdargs.symm.trans hargs)⟩

theorem forall_mem_closing_concat :
    (∀ d ∈ closing world p ++ [e], d.Inert parsers) ↔ e.Inert parsers := by
  simp only [mem_append, mem_singleton]
  constructor
  · intro h
    exact h e (.inr rfl)
  · rintro h d (hd | hd)
    · exact inert_of_mem_closing hd
    · exact hd ▸ h

variable {reply : Reply}

theorem inert_lineCallback {pre : Text} {i : Nat} {args : List Text} :
    Entry.Inert parsers ⟨i, .lineCallback pre args, reply⟩ ↔
      reply.left ≠ [] ∧ reply.left.headD [] ∉ parsers.sectionParsers := by
  simp [Entry.Inert]

theorem inert_parseSection {name : Text} {i : Nat} {args : List Text} :
    Entry.Inert parsers ⟨i, .parseSection name args filename line, reply⟩ := by
  simp [Entry.Inert]

variable (world parsers filename line) (p)

/-- A line that goes nowhere, or to the section that is open. -/
theorem lineOfSection_eq : ∃ new,
    lineOfSection world p line = { p with log := p.log ++ new } ∧
    (∀ e ∈ new, e.Inert parsers) ∧ Single p new p.sectionParser := by
  obtain ⟨current, args, log, lines⟩ := p
  cases current with
  | none =>
    refine ⟨[], by simp [lineOfSection], by simp, ?_⟩
    constructor <;> simp
  | some name =>
    refine ⟨[⟨lines.length, .parseLineSection name args line,
      world log (.parseLineSection name args line)⟩],
      by simp [lineOfSection, call], by simp [Entry.Inert], ?_⟩
    constructor <;> simp [run_cons, bracket, Call.args?]

/-- A line that begins a section. -/
theorem beginSection_eq (name : Text) : ∃ reply : Reply,
    beginSection world p filename line name =
      { p with
        sectionParser := if reply.ok then some name else none
        log := p.log ++ (closing world p ++
          [⟨p.lines.length, .parseSection name p.args filename line, reply⟩]) } := by
  simp only [beginSection, endSection_eq, call, append_assoc]
  exact ⟨_, rfl⟩

/-- A line that no callback wants, or that goes to one. -/
theorem tryLineCallbacks_cases : tryLineCallbacks world parsers p = p ∨
    ∃ pre, ∃ reply : Reply, tryLineCallbacks world parsers p =
      { p with
        sectionParser := none
        args := reply.left
        log := p.log ++ (closing world p ++
          [⟨p.lines.length, .lineCallback pre p.args, reply⟩]) } := by
  simp only [tryLineCallbacks]
  split
  · exact .inl rfl
  · simp only [endSection_eq, call, append_assoc]
    exact .inr ⟨_, _, rfl⟩

variable {world parsers filename line} {p}

/-- What the calls `new` for the line `p.args` are, if the loop goes on. Either they deliver the
line at most once, or a line callback left words that made them deliver it twice. -/
def LineCalls (parsers : Parsers) (p q : Parse) (new : List Entry) : Prop :=
  q.log = p.log ++ new ∧ q.lines = p.lines ++ [p.args] ∧ q.args = [] ∧
    ((∀ e ∈ new, e.Inert parsers) ∧ Single p new q.sectionParser ∨
      (¬∀ e ∈ new, e.Inert parsers) ∧ 2 ≤ new.countP (delivers p.lines.length))

/-- A line that no callback wants. -/
theorem parseLine_of_eq_self (hcall : tryLineCallbacks world parsers p = p) (hargs : p.args ≠ []) :
    ∃ q new, parseLine world parsers filename line p = .ok q ∧ LineCalls parsers p q new := by
  obtain ⟨word, words, hwords⟩ := exists_cons_of_ne_nil hargs
  simp only [parseLine, hcall, hwords]
  by_cases hword : parsers.sectionParsers.contains word
  · obtain ⟨reply, hbegin⟩ := beginSection_eq world filename line p word
    rw [if_pos hword, hbegin]
    refine ⟨_, _, rfl, rfl, by simp [hwords], rfl, .inl ⟨?_, ?_⟩⟩
    · exact forall_mem_closing_concat.mpr inert_parseSection
    · exact single_closing_concat (by simp [bracket]) rfl rfl
  · obtain ⟨new, hline, hinert, hsingle⟩ := lineOfSection_eq world parsers line p
    rw [if_neg hword, hline]
    exact ⟨_, _, rfl, rfl, by simp [hwords], rfl, .inl ⟨hinert, hsingle⟩⟩

/-- A line that goes to a callback, by the words that the callback leaves. -/
theorem parseLine_of_callback {pre : Text} (hcall : tryLineCallbacks world parsers p =
      { p with
        sectionParser := none
        args := reply.left
        log := p.log ++ (closing world p ++
          [⟨p.lines.length, .lineCallback pre p.args, reply⟩]) }) :
    (∃ q new, parseLine world parsers filename line p = .ok q ∧ LineCalls parsers p q new) ∨
      ∃ q, parseLine world parsers filename line p = .error q ∧
        ¬∀ e ∈ q.log, e.Inert parsers := by
  simp only [parseLine, hcall]
  cases hleft : reply.left with
  | nil =>
    refine .inr ⟨_, rfl, fun h => ?_⟩
    have hlast := inert_lineCallback.mp (h ⟨p.lines.length, .lineCallback pre p.args, reply⟩
      (by simp))
    exact hlast.1 hleft
  | cons word words =>
    left
    by_cases hword : parsers.sectionParsers.contains word
    · -- the words begin a section, so that the line is delivered a second time
      obtain ⟨again, hbegin⟩ := beginSection_eq world filename line
        { p with
          sectionParser := none
          args := word :: words
          log := p.log ++ (closing world p ++
            [⟨p.lines.length, .lineCallback pre p.args, reply⟩]) } word
      simp only [if_pos hword, hbegin]
      refine ⟨_, closing world p ++ [⟨p.lines.length, .lineCallback pre p.args, reply⟩,
        ⟨p.lines.length, .parseSection word (word :: words) filename line, again⟩],
        rfl, by simp [closing], rfl, rfl, .inr ⟨fun h => ?_, ?_⟩⟩
      · have hfirst := inert_lineCallback.mp (h ⟨p.lines.length, .lineCallback pre p.args, reply⟩
          (by simp))
        rw [hleft] at hfirst
        exact hfirst.2 (contains_iff_mem.mp hword)
      · simp [delivers, Call.args?]
    · -- there is no section that the words could go to
      simp only [if_neg hword, lineOfSection]
      refine ⟨_, _, rfl, rfl, rfl, rfl, .inl ⟨?_, ?_⟩⟩
      · exact forall_mem_closing_concat.mpr (inert_lineCallback.mpr (by simpa [hleft] using hword))
      · exact single_closing_concat (by simp [bracket]) rfl rfl

theorem parseLine_cases (world : World) (parsers : Parsers) (filename : Text) (line : Nat)
    (hargs : p.args ≠ []) :
    (∃ q new, parseLine world parsers filename line p = .ok q ∧ LineCalls parsers p q new) ∨
      ∃ q, parseLine world parsers filename line p = .error q ∧
        ¬∀ e ∈ q.log, e.Inert parsers := by
  rcases tryLineCallbacks_cases world parsers p with hcall | ⟨pre, reply, hcall⟩
  · exact .inl (parseLine_of_eq_self hcall hargs)
  · exact parseLine_of_callback hcall

end Line

/-! ### The calls so far -/

section Loop

variable {world : World} {parsers : Parsers} {filename : Text} {p q : Parse}

/-- The calls so far are well bracketed up to the section that is open, and every line was delivered
at most once. -/
structure Good (p : Parse) : Prop where
  run : run bracket none p.log = some p.sectionParser
  delivered : Delivered p.lines p.log

/-- Either all callbacks have left nothing and the calls are good, or a line was delivered twice. -/
def Tracked (parsers : Parsers) (p : Parse) : Prop :=
  (∀ e ∈ p.log, e.Inert parsers) ∧ Good p ∨
    (¬∀ e ∈ p.log, e.Inert parsers) ∧ ∃ i, 2 ≤ p.log.countP (delivers i)

/-- The lines that were delivered before are other ones. -/
theorem Good.countP_eq_zero (hp : Good p) : p.log.countP (delivers p.lines.length) = 0 := by
  refine List.countP_eq_zero.mpr fun e he hdelivers => ?_
  simp only [delivers, Bool.and_eq_true, beq_iff_eq, Option.isSome_iff_exists] at hdelivers
  obtain ⟨⟨args, hargs⟩, hline⟩ := hdelivers
  have hword := hp.delivered.words e he args hargs
  rw [hline, getElem?_eq_none (Nat.le_refl _)] at hword
  cases hword

variable {new : List Entry}

theorem Single.countP_le {s : Option Text} (hnew : Single p new s) (i : Nat) :
    new.countP (delivers i) ≤ 1 := by
  refine Nat.le_trans (countP_mono_left fun e _ h => ?_) hnew.once
  exact (Bool.and_eq_true_iff.mp h).1

theorem Single.countP_eq_zero {s : Option Text} (hnew : Single p new s) {i : Nat}
    (hi : i ≠ p.lines.length) : new.countP (delivers i) = 0 := by
  refine List.countP_eq_zero.mpr fun e he hdelivers => ?_
  simp only [delivers, Bool.and_eq_true, beq_iff_eq, Option.isSome_iff_exists] at hdelivers
  obtain ⟨⟨args, hargs⟩, hline⟩ := hdelivers
  exact hi (hline.symm.trans (hnew.words e he args hargs).1)

/-- One more line, delivered at most once. -/
theorem Good.line (hp : Good p) (hlog : q.log = p.log ++ new)
    (hlines : q.lines = p.lines ++ [p.args]) (hnew : Single p new q.sectionParser) : Good q where
  run := by
    rw [hlog, run_append, hp.run]
    exact hnew.run
  delivered := {
    once := by
      intro i
      rw [hlog, countP_append]
      by_cases hi : i = p.lines.length
      · rw [hi, hp.countP_eq_zero, Nat.zero_add]
        exact hnew.countP_le _
      · rw [hnew.countP_eq_zero hi]
        exact hp.delivered.once i
    words := by
      intro e he args hargs
      rw [hlog] at he
      rw [hlines]
      rcases mem_append.mp he with he | he
      · have hword := hp.delivered.words e he args hargs
        rw [getElem?_append_left (List.getElem?_eq_some_iff.mp hword).1]
        exact hword
      · obtain ⟨hline, rfl⟩ := hnew.words e he args hargs
        rw [hline, getElem?_concat_length] }

/-- One more word of a line changes nothing. -/
theorem Tracked.word (hp : Tracked parsers p) (word : Text) :
    Tracked parsers { p with args := p.args ++ [word] } := by
  rcases hp with ⟨hinert, hgood⟩ | htwice
  · exact .inl ⟨hinert, hgood.run, hgood.delivered⟩
  · exact .inr htwice

theorem Tracked.line (hp : Tracked parsers p) (h : LineCalls parsers p q new) :
    Tracked parsers q := by
  obtain ⟨hlog, hlines, -, hnew⟩ := h
  have hall : (∀ e ∈ q.log, e.Inert parsers) ↔
      (∀ e ∈ p.log, e.Inert parsers) ∧ ∀ e ∈ new, e.Inert parsers := by
    rw [hlog]
    exact forall_mem_append
  have hcount : ∀ i, q.log.countP (delivers i) = p.log.countP (delivers i) +
      new.countP (delivers i) := by
    intro i
    rw [hlog, countP_append]
  rcases hp with ⟨hinert, hgood⟩ | ⟨hnot, i, htwice⟩
  · rcases hnew with ⟨hnewInert, hsingle⟩ | ⟨hnewNot, htwice⟩
    · exact .inl ⟨hall.mpr ⟨hinert, hnewInert⟩, hgood.line hlog hlines hsingle⟩
    · exact .inr ⟨fun h => hnewNot (hall.mp h).2, p.lines.length, by rw [hcount]; omega⟩
  · -- a line that was delivered twice stays so
    exact .inr ⟨fun h => hnot (hall.mp h).1, i, by rw [hcount]; omega⟩

/-! ### The end of the loop -/

/-- What is known at the end of `ParseData`. -/
def Settled (parsers : Parsers) (lines : List (List Text)) : Outcome → Prop
  | .returned p => p.lines = lines ∧
      ((∀ e ∈ p.log, e.Inert parsers) ∧ run bracket none p.log = some none ∧
          Delivered p.lines p.log ∨
        (¬∀ e ∈ p.log, e.Inert parsers) ∧ ∃ i, 2 ≤ p.log.countP (delivers i))
  | .undefined p => ¬∀ e ∈ p.log, e.Inert parsers
  | .outOfFuel => False

/-- The end of the text. The section that is open is closed. -/
theorem Tracked.settled (hp : Tracked parsers p) :
    Settled parsers p.lines (.returned (endSection world p)) := by
  rw [endSection_eq]
  have hcount : ∀ i, (closing world p).countP (delivers i) = 0 := fun i =>
    countP_eq_zero.mpr fun e he => by simp [delivers, args?_of_mem_closing he]
  refine ⟨rfl, ?_⟩
  rcases hp with ⟨hinert, hgood⟩ | ⟨hnot, i, htwice⟩
  · refine .inl ⟨?_, ?_, ?_, ?_⟩
    · exact forall_mem_append.mpr ⟨hinert, fun e => inert_of_mem_closing⟩
    · rw [run_append, hgood.run]
      exact run_closing
    · intro i
      rw [countP_append, hcount]
      exact hgood.delivered.once i
    · intro e he args hargs
      rcases mem_append.mp he with he | he
      · exact hgood.delivered.words e he args hargs
      · rw [args?_of_mem_closing he] at hargs
        cases hargs
  · refine .inr ⟨fun h => hnot (forall_mem_append.mp h).1, i, ?_⟩
    rw [countP_append]
    omega

/-- The loop ends, after all lines of the text. -/
theorem parseLoop_settled (fuel : Nat) (state : ParseState) (p : Parse)
    (hfuel : state.remaining < fuel) (hp : Tracked parsers p) :
    Settled parsers (p.lines ++ linesLoop fuel state p.args)
      (parseLoop world parsers filename fuel state p) := by
  induction fuel generalizing state p with
  | zero => omega
  | succ fuel ih =>
    have hnext := nextToken_remaining state
    rcases htoken : nextToken state with ⟨token, next⟩
    rw [htoken] at hnext
    simp only [parseLoop, linesLoop, htoken]
    cases token with
    | eof =>
      rw [append_nil]
      exact hp.settled
    | text word =>
      have hless : next.remaining < fuel := by
        have : next.remaining < state.remaining := hnext (by simp)
        omega
      exact ih next { p with args := p.args ++ [word] } hless (hp.word word)
    | newline =>
      have hless : ParseState.remaining { next with line := next.line + 1 } < fuel := by
        have : next.remaining < state.remaining := hnext (by simp)
        show next.remaining < fuel
        omega
      by_cases hargs : p.args = []
      · simp only [if_pos hargs]
        exact ih _ p hless hp
      · simp only [if_neg hargs]
        rcases parseLine_cases world parsers filename (next.line + 1) hargs with
          ⟨q, new, hline, hcalls⟩ | ⟨q, hline, hnot⟩
        · simp only [hline]
          have hrest := ih { next with line := next.line + 1 } q hless (hp.line hcalls)
          rw [hcalls.2.1, hcalls.2.2.1, append_assoc] at hrest
          exact hrest
        · simp only [hline]
          exact hnot

end Loop

/-! ### Well-bracketed calls -/

theorem parseData_settled (world : World) (parsers : Parsers) (filename data : Text) :
    Settled parsers (scriptLines data) (parseData world parsers filename data) := by
  refine parseLoop_settled _ _ _ (Nat.lt_succ_self _) (.inl ⟨by simp, rfl, ?_⟩)
  constructor <;> simp

/-- `ParseData` returns and its calls are well bracketed exactly when every line callback leaves
words of which the first does not begin a section. -/
theorem wellBracketed_iff (world : World) (parsers : Parsers) (filename data : Text) :
    WellBracketed data (parseData world parsers filename data) ↔
      ∀ e ∈ (parseData world parsers filename data).log, e.Inert parsers := by
  have hsettled := parseData_settled world parsers filename data
  cases houtcome : parseData world parsers filename data with
  | returned p =>
    rw [houtcome] at hsettled
    obtain ⟨hlines, ⟨hinert, hrun, hdelivered⟩ | ⟨hnot, i, htwice⟩⟩ := hsettled
    · exact iff_of_true ⟨p, rfl, hrun, hlines ▸ hdelivered⟩ hinert
    · refine iff_of_false ?_ hnot
      rintro ⟨q, hq, -, hdelivered⟩
      cases hq
      have := hdelivered.once i
      omega
  | undefined p =>
    rw [houtcome] at hsettled
    refine iff_of_false ?_ hsettled
    rintro ⟨q, hq, -⟩
    cases hq
  | outOfFuel =>
    rw [houtcome] at hsettled
    exact hsettled.elim

/-- A callback that moves the words away, and one that leaves them. -/
def takesArgs : World := fun _ _ => ⟨true, []⟩

@[inherit_doc takesArgs]
def keepsArgs : World := fun _ c => ⟨true, c.args?.getD []⟩

/-- The parsers of `ueventd`, with a line callback for `/dev/`. -/
def ueventd : Parsers := ⟨["subsystem".toList], ["/dev/".toList]⟩

/-- A line callback for lines that also begin a section. -/
def overlapping : Parsers := ⟨["on".toList], ["o".toList]⟩

/-- A callback that takes the words it is given makes `ParseData` read from an empty vector, and one
that leaves the words of a line that begins a section has the line delivered twice. -/
theorem takesArgs_not_wellBracketed :
    ¬WellBracketed "/dev/null 0666\n".toList
        (parseData takesArgs ueventd [] "/dev/null 0666\n".toList) ∧
      ¬WellBracketed "on boot\n".toList
        (parseData keepsArgs overlapping [] "on boot\n".toList) := by
  constructor
  · rintro ⟨p, hp, -⟩
    cases hp
  · rintro ⟨p, hp, -, hdelivered⟩
    have htwice : ((parseData keepsArgs overlapping [] "on boot\n".toList).log.countP
        (delivers 0)) = 2 := by decide
    rw [hp] at htwice
    have honce : p.log.countP (delivers 0) ≤ 1 := hdelivered.once 0
    rw [show (Outcome.returned p).log = p.log from rfl] at htwice
    omega

end AndroidCore.Init.Parser
