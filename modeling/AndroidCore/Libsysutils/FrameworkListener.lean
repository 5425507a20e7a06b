import Mathlib.Tactic.Ring

/-!
# `AndroidCore.Libsysutils.FrameworkListener`: commands from a socket

The model of `FrameworkListener.cpp`. A listener reads from the sockets of its clients.
Every read fills a buffer of `CMD_BUF_SIZE` bytes from its start, and `onDataAvailable`
hands the zero-terminated strings in it to `dispatchCommand`. What a read that ends
inside of a command leaves behind is the flag `mSkipToNextNullByte`, which belongs to
the listener and not to the client.

`dispatchCommand` splits a string at its blanks, with quotes and escapes, and runs the
command of that name. What it does to the client is a list of `Effect`s. The handlers
of the commands are not part of the model: a call of one is an effect.
-/

namespace AndroidCore.Libsysutils

/-- `CMD_BUF_SIZE`. -/
def cmdBufSize : Nat := 1024

/-- `CMD_ARGS_MAX`. -/
def cmdArgsMax : Nat := 26

/-- `FrameworkListener`: `mCommands` are the names of the registered commands. -/
structure FrameworkListener where
  errorRate : Int
  mCommandCount : Int
  mWithSeq : Bool
  mCommands : List (List UInt8)
  mSkipToNextNullByte : Bool
  deriving DecidableEq, Repr

/-- What a listener does with a client: it answers, sets the number of the command, runs a
command, or ignores one. -/
inductive Effect where
  | sendMsg (code : Nat) (msg : String)
  | setCmdNum (cmdNum : Int)
  | runCommand (command : List UInt8) (argv : List (List UInt8))
  | fakeTimeout
  deriving DecidableEq, Repr

/-! ### `strtol` with base 0 -/

/-- `isspace`. -/
def isSpace (c : UInt8) : Bool := c = 0x20 ∨ (0x09 ≤ c ∧ c ≤ 0x0d)

/-- The value of a digit, of any base up to 16. -/
def digitValue (c : UInt8) : Option Nat :=
  if 0x30 ≤ c ∧ c ≤ 0x39 then some (c.toNat - 0x30)
  else if 0x61 ≤ c ∧ c ≤ 0x66 then some (c.toNat - 0x61 + 10)
  else if 0x41 ≤ c ∧ c ≤ 0x46 then some (c.toNat - 0x41 + 10)
  else none

/-- The digits of a number, and what follows them. -/
def digits (base : Nat) : Nat → List UInt8 → Nat × List UInt8
  | acc, [] => (acc, [])
  | acc, c :: rest =>
    match digitValue c with
    | some d => if d < base then digits base (acc * base + d) rest else (acc, c :: rest)
    | none => (acc, c :: rest)

/-- The number of digits at the start. -/
def leadingDigits (base : Nat) (s : List UInt8) : Nat :=
  (s.takeWhile fun c => (digitValue c).any (· < base)).length

/-- The magnitude that `strtol` reads: the base is 16 behind `0x` and a digit, 8 behind `0`,
and 10 otherwise. `none` when there is no digit. -/
def magnitude : List UInt8 → Option (Nat × List UInt8)
  | 0x30 :: x :: rest =>
    if (x = 0x78 ∨ x = 0x58) ∧ 0 < leadingDigits 16 rest then some (digits 16 0 rest)
    else some (digits 8 0 (0x30 :: x :: rest))
  | s => if 0 < leadingDigits 10 s then some (digits 10 0 s) else none

/-- The conversion of a `long` to an `int`. -/
def toInt (n : Int) : Int := (n + 2 ^ 31) % 2 ^ 32 - 2 ^ 31

/-- `strtol(s, &endptr, 0)`, converted to an `int`, and the text behind `endptr`. -/
def strtol (s : List UInt8) : Int × List UInt8 :=
  match s.dropWhile isSpace with
  | 0x2d :: rest => (magnitude rest).elim (0, s) fun m => (toInt (max (-m.1) (-2 ^ 63)), m.2)
  | 0x2b :: rest => (magnitude rest).elim (0, s) fun m => (toInt (min m.1 (2 ^ 63 - 1)), m.2)
  | rest => (magnitude rest).elim (0, s) fun m => (toInt (min m.1 (2 ^ 63 - 1)), m.2)

/-! ### `SocketClient::quoteArg` -/

/-- One pass of the loop: a backslash in front of a backslash and of a quote. -/
def escapeChar (c : UInt8) : List UInt8 := if c = 0x5c ∨ c = 0x22 then [0x5c, c] else [c]

/-- `quoteArg`, when there is memory for the result. -/
def quoteArg (arg : List UInt8) : List UInt8 := 0x22 :: (arg.flatMap escapeChar ++ [0x22])

/-! ### `dispatchCommand` -/

/-- The variables of the loop of `dispatchCommand`. `tmp` is the text between `tmp` and `q`. -/
structure Parse where
  esc : Bool
  quote : Bool
  haveCmdNum : Bool
  tmp : List UInt8
  argv : List (List UInt8)
  effects : List Effect
  deriving DecidableEq, Repr

namespace Parse

/-- `goto out` behind a message to the client. -/
def fail (s : Parse) (msg : String) : Except (List Effect) Parse :=
  .error (s.effects ++ [.sendMsg 500 msg])

/-- `goto overflow`. -/
def overflow (s : Parse) : Except (List Effect) Parse := s.fail "Command too long"

/-- `*q++ = c`, with the check against `qlimit`. -/
def put (s : Parse) (c : UInt8) : Except (List Effect) Parse :=
  if cmdBufSize - 1 ≤ s.tmp.length then s.overflow else .ok { s with tmp := s.tmp ++ [c] }

/-- `argv[argc++] = strdup(tmp)`. -/
def pushArg (s : Parse) : Except (List Effect) Parse :=
  if cmdArgsMax ≤ s.argv.length then s.overflow else .ok { s with argv := s.argv ++ [s.tmp] }

/-- A blank outside of quotes ends the number of the command, or an argument. -/
def endWord (s : Parse) : Except (List Effect) Parse :=
  if cmdBufSize - 1 ≤ s.tmp.length then s.overflow
  else if !s.haveCmdNum then
    let (cmdNum, rest) := strtol s.tmp
    if rest ≠ [] then s.fail "Invalid sequence number"
    else .ok { s with
      haveCmdNum := true, tmp := [], effects := s.effects ++ [.setCmdNum cmdNum] }
  else do
    let s ← s.pushArg
    return { s with tmp := [] }

/-- One character of the command. -/
def step (s : Parse) (c : UInt8) : Except (List Effect) Parse :=
  if c = 0x5c then -- a backslash
    if s.esc then do
      let s ← s.put 0x5c
      return { s with esc := false }
    else .ok { s with esc := true }
  else if s.esc then
    if c = 0x22 then do
      let s ← s.put 0x22
      return { s with esc := false }
    else s.fail "Unsupported escape sequence"
  else if c = 0x22 then .ok { s with quote := !s.quote } -- a quote
  else if !s.quote ∧ c = 0x20 then s.endWord
  else s.put c

/-- The state before the loop. -/
def start (withSeq : Bool) : Parse where
  esc := false
  quote := false
  haveCmdNum := !withSeq
  tmp := []
  argv := []
  effects := []

/-- The loop, and the last argument. -/
def parse (withSeq : Bool) (data : List UInt8) : Except (List Effect) Parse := do
  let s ← data.foldlM step (start withSeq)
  let s ← s.pushArg
  if s.quote then s.fail "Unclosed quotes error" else return s

end Parse

namespace FrameworkListener

/-- The loop over the registered commands. -/
def runCommand (l : FrameworkListener) (argv : List (List UInt8)) : Effect :=
  match l.mCommands.find? fun command => argv.head? = some command with
  | some command => .runCommand command argv
  | none => .sendMsg 500 "Command not recognized"

/-- `FrameworkListener::dispatchCommand`, on a string without its terminator. -/
def dispatchCommand (l : FrameworkListener) (data : List UInt8) : FrameworkListener × List Effect :=
  match Parse.parse l.mWithSeq data with
  | .error effects => (l, effects)
  | .ok s =>
    if l.errorRate ≠ 0 then
      let l := { l with mCommandCount := l.mCommandCount + 1 }
      if l.mCommandCount.tmod l.errorRate = 0 then
        -- ignore this command - let the timeout handler handle it
        (l, s.effects ++ [.fakeTimeout])
      else (l, s.effects ++ [l.runCommand s.argv])
    else (l, s.effects ++ [l.runCommand s.argv])

/-! ### `onDataAvailable` -/

/-- The constructor, and the commands registered with it. -/
def init (withSeq : Bool) (commands : List (List UInt8)) : FrameworkListener where
  errorRate := 0
  mCommandCount := 0
  mWithSeq := withSeq
  mCommands := commands
  mSkipToNextNullByte := false

/-- What a read leads to: the strings handed to `dispatchCommand`, each with its effects, and
the answer to a string that does not end. -/
structure ReadTrace where
  dispatched : List (List UInt8 × List Effect)
  effects : List Effect
  deriving DecidableEq, Repr

/-- The loop over the buffer: `cur` is the text from `offset` to `i`. -/
def dispatchLoop (l : FrameworkListener) (cur : List UInt8) :
    List UInt8 → FrameworkListener × List (List UInt8 × List Effect)
  | [] => ({ l with mSkipToNextNullByte := false }, [])
  | b :: rest =>
    if b = 0 then
      if l.mSkipToNextNullByte then
        dispatchLoop { l with mSkipToNextNullByte := false } [] rest
      else
        let (l, effects) := l.dispatchCommand cur
        let (l, dispatched) := dispatchLoop l [] rest
        (l, (cur, effects) :: dispatched)
    else dispatchLoop l (cur ++ [b]) rest

/-- `FrameworkListener::onDataAvailable`, on the bytes that `read` put into the buffer. A
read that fails has none, as one at the end of the stream: both return `false`. -/
def onDataAvailable (l : FrameworkListener) (buffer : List UInt8) :
    FrameworkListener × ReadTrace × Bool :=
  if buffer = [] then (l, ⟨[], []⟩, false)
  else if buffer.getLast? ≠ some 0 then
    ({ l with mSkipToNextNullByte := true },
      ⟨[], [.sendMsg 500 "Command too large for buffer"]⟩, true)
  else
    let (l, dispatched) := l.dispatchLoop [] buffer
    (l, ⟨dispatched, []⟩, true)

/-- The reads of the clients of a listener, in their order. -/
def run {Client : Type} (l : FrameworkListener) :
    List (Client × List UInt8) → List (Client × ReadTrace)
  | [] => []
  | (c, buffer) :: reads =>
    let (l, trace, _) := l.onDataAvailable buffer
    (c, trace) :: run l reads

end FrameworkListener

/-- The strings that a read hands to `dispatchCommand`. -/
def FrameworkListener.ReadTrace.commands (t : FrameworkListener.ReadTrace) : List (List UInt8) :=
  t.dispatched.map Prod.fst

end AndroidCore.Libsysutils
