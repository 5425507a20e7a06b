import AndroidCore.Logd.LogBuffer

/-!
# `AndroidCore.Logd.LogTimes`: times and readers

The order and the subtraction of `log_time`, and `LogTimeEntry`, what `logd` knows of
a reader. A reader that owns its entry and watches a log holds back the pruning of
that log from a little before its position `mStart` on.

The thread of a reader, its condition variable and its lock are not part of the
model: a signal changes no field.
-/

namespace AndroidCore.Logd

/-! ### `log_time` -/

namespace LogTime

/-- `operator<`. -/
instance : LT LogTime where
  lt t u := t.tvSec < u.tvSec ∨ (t.tvSec = u.tvSec ∧ t.tvNsec < u.tvNsec)

/-- `operator<=`: not greater. -/
instance : LE LogTime where
  le t u := ¬ u < t

instance (t u : LogTime) : Decidable (t < u) :=
  inferInstanceAs (Decidable (t.tvSec < u.tvSec ∨ (t.tvSec = u.tvSec ∧ t.tvNsec < u.tvNsec)))

instance (t u : LogTime) : Decidable (t ≤ u) := inferInstanceAs (Decidable (¬ u < t))

/-- `EPOCH`. -/
def epoch : LogTime := ⟨0, 0⟩

/-- `operator-`: no time is before `EPOCH`. -/
instance : Sub LogTime where
  sub t u :=
    if t ≤ u then epoch
    else if t.tvNsec < u.tvNsec then
      -- borrow one second
      ⟨t.tvSec - 1 - u.tvSec, nsPerSec.toUInt32 + t.tvNsec - u.tvNsec⟩
    else ⟨t.tvSec - u.tvSec, t.tvNsec - u.tvNsec⟩

end LogTime

/-- `pruneMargin`. -/
def pruneMargin : LogTime := ⟨3, 0⟩

/-! ### `LogTimeEntry` -/

/-- The number of a log. -/
def LogId.toNat : LogId → Nat
  | .main => 0
  | .radio => 1
  | .events => 2
  | .system => 3
  | .crash => 4
  | .security => 5
  | .kernel => 6

/-- `timespec`. -/
structure Timespec where
  tvSec : Int
  tvNsec : Int
deriving DecidableEq, Repr

/-- `LogTimeEntry`: a reader. -/
structure LogTimeEntry where
  mRefCount : Nat
  mLogMask : Nat
  mStart : LogTime
  mTimeout : Timespec
  mNonBlock : Bool
  mEnd : LogTime
  mRelease : Bool
  skipAhead : LogId → UInt32

namespace LogTimeEntry

variable (entry : LogTimeEntry)

/-- `owned_Locked`. -/
def owned : Bool := entry.mRefCount ≠ 0

/-- `isWatching`. -/
def isWatching (id : LogId) : Bool := entry.mLogMask.testBit id.toNat

/-- `mTimeout.tv_sec || mTimeout.tv_nsec`. -/
def timeoutSet : Bool := entry.mTimeout.tvSec ≠ 0 ∨ entry.mTimeout.tvNsec ≠ 0

/-- `release_Locked`, of an entry that is owned and so not deleted. -/
def release : LogTimeEntry := { entry with mRelease := true }

/-- `triggerSkip_Locked`. -/
def triggerSkip (id : LogId) (skip : UInt32) : LogTimeEntry :=
  { entry with skipAhead := fun i => if i = id then skip else entry.skipAhead i }

end LogTimeEntry

/-- `owned_Locked() && isWatching(id)`: the reader holds back the pruning of `id`. -/
def LogTimeEntry.holds (entry : LogTimeEntry) (id : LogId) : Bool :=
  entry.owned && entry.isWatching id

/-- The start of `prune`: the oldest of the readers that watch `id`. Of two that start
together one with a timeout is taken. The index is the one of the reader in `mTimes`. -/
def oldestReader (id : LogId) :
    List LogTimeEntry → Nat → Option (Nat × LogTimeEntry) → Option (Nat × LogTimeEntry)
  | [], _, oldest => oldest
  | entry :: rest, index, oldest =>
    let earlier := oldest.all fun o =>
      entry.mStart < o.2.mStart || (o.2.mStart = entry.mStart && entry.timeoutSet)
    oldestReader id rest (index + 1)
      (if entry.holds id && earlier then some (index, entry) else oldest)

end AndroidCore.Logd
