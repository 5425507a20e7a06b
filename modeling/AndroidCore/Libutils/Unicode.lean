import Mathlib.Logic.Basic

/-!
# `AndroidCore.Libutils.Unicode`: strings of 16-bit units

The model of `strncpy16` in `Unicode.cpp`. Each unit goes through a variable of type `char`, which
also ends the loop when it is zero. Whether `char` has a sign depends on the platform.
-/

namespace AndroidCore.Libutils.Unicode

/-- A unit that was stored in a `char`. -/
def viaChar (signed : Bool) (unit : UInt16) : UInt16 :=
  let low := unit % 0x100
  if signed ∧ 0x80 ≤ low then low + 0xFF00 else low

/-- `strncpy16`: the units that it stores from `dst` on. `src` are the units in front of the
terminator, which is copied as well and ends the loop. -/
def strncpy16 (signed : Bool) : List UInt16 → Nat → List UInt16
  | _, 0 => [0]
  | [], _ + 1 => [0, 0]
  | unit :: src, n + 1 =>
    let ch := viaChar signed unit
    if ch = 0 then [ch, 0] else ch :: strncpy16 signed src n

end AndroidCore.Libutils.Unicode
