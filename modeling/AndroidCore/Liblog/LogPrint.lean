/-!
# `AndroidCore.Liblog.LogPrint`: the integers of a binary event

`android_log_printBinaryEvent` of `logprint.c` prints an integer in decimal. Where the format
of the tag gives bytes as the data unit, a multiple of 1024 is painted over, as a smaller number
with a multiplier.
-/

namespace AndroidCore.Liblog

/-- `snprintf` into `outBufLen` bytes, which the text has to fit into with its NUL. -/
def snprintf (outBufLen : Nat) (text : List Char) : Option (List Char) :=
  if text.length < outBufLen then some text else none

/-- The conversion `%PRId64`. -/
def decimal (lval : Int) : List Char := (toString lval).toList

/-- The loop of `TYPE_BYTES`, at the entry `suffix` of the table. It leaves at a remainder, or
when the entry behind is the last one. -/
def repaint (suffix : Char) : List Char → Int → Int × Char
  | [], lval => (lval, suffix)
  | next :: rest, lval =>
    let lval := lval.tdiv 1024
    if lval.tmod 1024 ≠ 0 then (lval, suffix) else repaint next rest lval

/-- The text of an integer with the data unit `TYPE_BYTES`; `none` is `no_room`. -/
def printBytes (lval : Int64) (outBufLen : Nat) : Option (List Char) := do
  let text ← snprintf outBufLen (decimal lval.toInt)
  if lval ≠ 0 ∧ lval.toInt.tmod 1024 = 0 then
    let (number, suffix) := repaint 'K' ['M', 'G', 'T'] lval.toInt
    snprintf outBufLen (decimal number ++ [suffix, 'B'])
  else
    let unit ← snprintf (outBufLen - text.length) ['B']
    return text ++ unit

end AndroidCore.Liblog
