import Mathlib.Logic.Basic

/-!
# `AndroidCore.Init.Tokenizer`: the words of an init script

The model of `tokenizer.cpp`. `next_token` reads a text up to its terminating null character and
returns a word, the end of a line or the end of the text.

* The text that is left is a list of characters; its end stands for the null character that
  `ParseData` puts there. The text may have null characters of its own, which also end it.
* The source writes the characters of a word over the text that it has read. It never writes
  behind the place where it reads, so the model collects them beside the text.
* After `\n`, `\r`, `\t` and `\\` the source writes the character that is meant but does not step
  over the letter, so the letter is read once more as it stands. `scan` does both at once.
-/

namespace AndroidCore.Init.Tokenizer

/-- A text, as the list of its characters. -/
abbrev Text := List Char

/-- The null character. -/
def nul : Char := Char.ofNat 0

/-- `T_EOF`, `T_TEXT` with the word, and `T_NEWLINE`. -/
inductive Token where
  | eof
  | text (word : Text)
  | newline
  deriving DecidableEq, Repr

/-- `struct parse_state`. The word of a `T_TEXT` comes with the token. -/
structure ParseState where
  ptr : Text
  line : Nat
  nexttoken : Bool
  deriving DecidableEq, Repr

/-- Where the loop over the characters of a word is. -/
inductive Mode where
  /-- At `textresume`; `eat` after a line continuation, where blanks are eaten. -/
  | text (eat : Bool)
  /-- Behind a quotation mark. -/
  | quoted
  /-- Behind a backslash. -/
  | escape
  deriving DecidableEq, Repr

/-- The loop of `next_token` over the characters of a word, of which `s` were written. -/
def scan (mode : Mode) (s : Text) (line : Nat) : Text → Token × ParseState
  | [] =>
    -- the terminating null character
    match mode with
    | .quoted => (.eof, ⟨[], line, false⟩)
    | _ => (.text s, ⟨[], line, false⟩)
  | c :: x =>
    match mode with
    | .text eat =>
      if eat ∧ (c = ' ' ∨ c = '\t') then scan (.text true) s line x
      else if c = nul then (.text s, ⟨c :: x, line, false⟩)
      else if c = ' ' ∨ c = '\t' ∨ c = '\r' then (.text s, ⟨x, line, false⟩)
      else if c = '\n' then (.text s, ⟨x, line, true⟩)
      else if c = '"' then scan .quoted s line x
      else if c = '\\' then scan .escape s line x
      else scan (.text false) (s ++ [c]) line x
    | .quoted =>
      if c = nul then (.eof, ⟨c :: x, line, false⟩)
      else if c = '"' then scan (.text false) s line x
      else scan .quoted (s ++ [c]) line x
    | .escape =>
      if c = nul then (.text s, ⟨c :: x, line, false⟩)
      else if c = 'n' then scan (.text false) (s ++ ['\n', 'n']) line x
      else if c = 'r' then scan (.text false) (s ++ ['\r', 'r']) line x
      else if c = 't' then scan (.text false) (s ++ ['\t', 't']) line x
      -- the second backslash is read once more, as the first one
      else if c = '\\' then scan .escape (s ++ ['\\']) line x
      -- only the carriage return is stepped over, also when a line feed follows
      else if c = '\r' then
        scan (.text false) s (if x.head? = some '\n' then line + 1 else line) x
      else if c = '\n' then scan (.text true) s (line + 1) x
      else scan (.text false) (s ++ [c]) line x

/-- The loop of `next_token` over what stands before a word. -/
def skip (comment : Bool) (line : Nat) : Text → Token × ParseState
  | [] => (.eof, ⟨[], line, false⟩)
  | c :: x =>
    if c = nul then (.eof, ⟨c :: x, line, false⟩)
    else if c = '\n' then (.newline, ⟨x, line, false⟩)
    else if comment ∨ c = '#' then skip true line x
    else if c = ' ' ∨ c = '\t' ∨ c = '\r' then skip false line x
    else scan (.text false) [] line (c :: x)

/-- `next_token`. -/
def nextToken (state : ParseState) : Token × ParseState :=
  if state.nexttoken then (.newline, { state with nexttoken := false })
  else skip false state.line state.ptr

end AndroidCore.Init.Tokenizer
