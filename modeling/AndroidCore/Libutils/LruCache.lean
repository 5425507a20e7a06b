import Mathlib.Logic.Basic

/-!
# `AndroidCore.Libutils.LruCache`: a cache that evicts

The model of `LruCache.h`, of `put` and what it calls. The hash set and the list from `mOldest` to
`mYoungest` hold the same entries, and are one list here.
-/

namespace AndroidCore.Libutils

/-- A cache, with the calls of its listener. -/
structure LruCache (K V : Type) where
  entries : List (K × V)
  mMaxCapacity : Nat
  mListener : Bool
  callbacks : List (K × V)

namespace LruCache

variable {K V : Type} [DecidableEq K] (s : LruCache K V) (key : K)

/-- `findByKey`. -/
def findByKey : Option (K × V) := s.entries.find? (·.1 = key)

/-- `remove`. -/
def remove : Bool × LruCache K V :=
  match s.findByKey key with
  | none => (false, s)
  | some entry =>
    (true, { s with
      entries := s.entries.eraseP (·.1 = key)
      callbacks := if s.mListener then s.callbacks ++ [entry] else s.callbacks })

/-- `removeOldest`. -/
def removeOldest : Bool × LruCache K V :=
  match s.entries with
  | [] => (false, s)
  | oldest :: _ => s.remove oldest.1

/-- The capacity is not `kUnlimitedCapacity`, and it is used up. -/
def Full : Prop := s.mMaxCapacity ≠ 0 ∧ s.mMaxCapacity ≤ s.entries.length

instance : Decidable s.Full := inferInstanceAs (Decidable (_ ∧ _))

/-- `put`. -/
def put (value : V) : Bool × LruCache K V :=
  let s := if s.Full then s.removeOldest.2 else s
  if (s.findByKey key).isSome then (false, s)
  else (true, { s with entries := s.entries ++ [(key, value)] })

end LruCache

end AndroidCore.Libutils
