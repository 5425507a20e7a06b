import AndroidCore.Lib.Transitions
import AndroidCore.Init.Tokenizer

/-!
# `AndroidCore.Init.Parser`: sections, lines and who gets them

The model of `Parser::ParseData` of `parser.cpp`. The words of a line go to the first line callback
whose prefix the first word has. Otherwise a first word that names a section parser begins a
section, and every other line goes to the section that is open.

* The section parsers are known by their names, the keys of `section_parsers_`, and the line
  callbacks by their prefixes. What they do is not part of the model, but for what `ParseData`
  sees of it: whether they fail, and the words that a line callback leaves in `args`, which it gets
  by reference and may move away. `World` chooses this anew for every call, from all that was called
  before.
* The calls are logged, each with the line that it is made for, and `lines` are the words of the
  lines so far. Nothing reads them.
* `args[0]` of an empty vector is undefined. `ParseData` ends there (`undefined`).
-/

namespace AndroidCore.Init.Parser

open Lib Tokenizer

/-- The calls that `ParseData` makes. -/
inductive Call where
  | lineCallback (pre : Text) (args : List Text)
  | parseSection (name : Text) (args : List Text) (filename : Text) (line : Nat)
  | parseLineSection (name : Text) (args : List Text) (line : Nat)
  | endSection (name : Text)
  deriving DecidableEq, Repr

/-- Whether the call succeeds, and the words that are left in `args`. -/
structure Reply where
  ok : Bool
  left : List Text
  deriving DecidableEq, Repr

/-- A call that was made for a line. -/
structure Entry where
  line : Nat
  call : Call
  reply : Reply
  deriving DecidableEq, Repr

/-- What the section parsers and callbacks answer. -/
abbrev World := List Entry → Call → Reply

/-- `section_parsers_` and `line_callbacks_`. -/
structure Parsers where
  sectionParsers : List Text
  lineCallbacks : List Text
  deriving DecidableEq, Repr

/-- `prefix.c_str()`, which ends at the first null character. -/
def cStr (s : Text) : Text :=
  s.takeWhile fun c => c ≠ nul

/-- The variables of `ParseData`. -/
structure Parse where
  sectionParser : Option Text
  args : List Text
  log : List Entry
  lines : List (List Text)
  deriving DecidableEq, Repr

/-- How `ParseData` ends. -/
inductive Outcome where
  | returned (parse : Parse)
  | undefined (parse : Parse)
  | outOfFuel
  deriving DecidableEq, Repr

section

variable (world : World)

/-- A call, and what it answers. -/
def call (p : Parse) (c : Call) : Parse × Reply :=
  let reply := world p.log c
  ({ p with log := p.log ++ [⟨p.lines.length, c, reply⟩] }, reply)

/-- `if (section_parser) section_parser->EndSection()`. -/
def endSection (p : Parse) : Parse :=
  match p.sectionParser with
  | none => p
  | some name => (call world p (.endSection name)).1

/-- The loop over the line callbacks. -/
def tryLineCallbacks (parsers : Parsers) (p : Parse) : Parse :=
  match parsers.lineCallbacks.find? fun pre => (cStr pre).isPrefixOf (p.args.headD []) with
  | none => p
  | some pre =>
    let p := endSection world p
    let (p, reply) := call world p (.lineCallback pre p.args)
    { p with sectionParser := none, args := reply.left }

/-- A line whose first word names a section parser. -/
def beginSection (p : Parse) (filename : Text) (line : Nat) (name : Text) : Parse :=
  let p := endSection world p
  let (p, reply) := call world p (.parseSection name p.args filename line)
  { p with sectionParser := if reply.ok then some name else none }

/-- A line of the section that is open, if one is. -/
def lineOfSection (p : Parse) (line : Nat) : Parse :=
  match p.sectionParser with
  | none => p
  | some name => (call world p (.parseLineSection name p.args line)).1

/-- What `ParseData` does at the end of a line that has words. It is an error to read `args[0]` of
an empty vector. -/
def parseLine (parsers : Parsers) (filename : Text) (line : Nat) (p : Parse) : Except Parse Parse :=
  let words := p.args
  let p := tryLineCallbacks world parsers p
  match p.args with
  | [] => .error p
  | word :: _ =>
    let p :=
      if parsers.sectionParsers.contains word then beginSection world p filename line word
      else lineOfSection world p line
    .ok { p with args := [], lines := p.lines ++ [words] }

/-- The loop of `ParseData`. -/
def parseLoop (parsers : Parsers) (filename : Text) : Nat → ParseState → Parse → Outcome
  | 0, _, _ => .outOfFuel
  | fuel + 1, state, p =>
    match nextToken state with
    | (.eof, _) => .returned (endSection world p)
    | (.newline, state) =>
      let state := { state with line := state.line + 1 }
      if p.args = [] then parseLoop parsers filename fuel state p
      else
        match parseLine world parsers filename state.line p with
        | .error p => .undefined p
        | .ok p => parseLoop parsers filename fuel state p
    | (.text word, state) =>
      parseLoop parsers filename fuel state { p with args := p.args ++ [word] }

/-- `Parser::ParseData`. Twice the length of the text is enough for the loop. -/
def parseData (parsers : Parsers) (filename data : Text) : Outcome :=
  parseLoop world parsers filename (2 * data.length + 1) ⟨data, 0, false⟩ ⟨none, [], [], []⟩

end

/-! ### What is asked of the calls -/

/-- The words that a call delivers. -/
def Call.args? : Call → Option (List Text)
  | .lineCallback _ args => some args
  | .parseSection _ args _ _ => some args
  | .parseLineSection _ args _ => some args
  | .endSection _ => none

/-- The section that is open after a call, if the call may be made while `current` is open. -/
def bracket (current : Option Text) (e : Entry) : Option (Option Text) :=
  match e.call with
  | .lineCallback _ _ => if current = none then some none else none
  | .parseSection name _ _ _ =>
    if current = none then some (if e.reply.ok then some name else none) else none
  | .parseLineSection name _ _ => if current = some name then some current else none
  | .endSection name => if current = some name then some none else none

/-- The words of the lines of a text that has any, by the tokens alone. `args` are the words of the
current line so far. -/
def linesLoop : Nat → ParseState → List Text → List (List Text)
  | 0, _, _ => []
  | fuel + 1, state, args =>
    match nextToken state with
    | (.eof, _) => []
    | (.newline, state) =>
      let state := { state with line := state.line + 1 }
      if args = [] then linesLoop fuel state args else args :: linesLoop fuel state []
    | (.text word, state) => linesLoop fuel state (args ++ [word])

/-- The words of the lines of a text. -/
def scriptLines (data : Text) : List (List Text) :=
  linesLoop (2 * data.length + 1) ⟨data, 0, false⟩ []

/-- The call delivers line `i`. -/
def delivers (i : Nat) (e : Entry) : Bool :=
  e.call.args?.isSome && e.line == i

/-- Every line is delivered at most once, and with its own words. -/
structure Delivered (lines : List (List Text)) (log : List Entry) : Prop where
  once : ∀ i, log.countP (delivers i) ≤ 1
  words : ∀ e ∈ log, ∀ args, e.call.args? = some args → lines[e.line]? = some args

/-- `ParseData` returns, its calls are well bracketed with no section open at the end, and every
line of the text is delivered at most once. -/
def WellBracketed (data : Text) (outcome : Outcome) : Prop :=
  ∃ p, outcome = .returned p ∧ Transitions.run bracket none p.log = some none ∧
    Delivered (scriptLines data) p.log

/-- The calls that were made. -/
def Outcome.log : Outcome → List Entry
  | .returned p => p.log
  | .undefined p => p.log
  | .outOfFuel => []

/-- What a line callback leaves behind has no effect: there is a first word, and it does not begin
a section. -/
def Entry.Inert (parsers : Parsers) (e : Entry) : Prop :=
  ∀ pre args, e.call = .lineCallback pre args →
    e.reply.left ≠ [] ∧ e.reply.left.headD [] ∉ parsers.sectionParsers

end AndroidCore.Init.Parser
