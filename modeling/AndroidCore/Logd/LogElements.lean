import AndroidCore.Logd.LogTimes
import AndroidCore.Logd.LogStatistics

/-!
# `AndroidCore.Logd.LogElements`: the stored elements of `logd`

The part of `LogBuffer` behind `log(LogBufferElement*)`: the list `mLogElements` of all
logs together, the statistics, and the iterators into the list that pruning remembers.

An iterator is the `ref` of a node of the list. `mLast id` is `none` when `mLastSet[id]`
is false. A loop of the source that walks from an iterator to the end is a recursion
over the nodes from there on: it changes and erases only the node it stands on and
nodes before that one.
-/

namespace AndroidCore.Logd

/-! ### `PruneList` -/

/-- `Prune`: a uid and a pid, both of which may be `-1` for any. -/
structure Prune where
  mUid : UInt32
  mPid : UInt32
deriving DecidableEq, Repr

namespace Prune

/-- `uid_all`. -/
def uidAll : UInt32 := 0xFFFFFFFF

/-- `pid_all`. -/
def pidAll : UInt32 := 0xFFFFFFFF

/-- `cmp`. -/
def cmp (p : Prune) (e : LogBufferElement) : UInt32 :=
  if p.mUid = uidAll ∨ p.mUid = e.mUid then
    if p.mPid = pidAll then 0 else e.mPid - p.mPid
  else e.mUid - p.mUid

end Prune

/-- `PruneList`. -/
structure PruneList where
  mNaughty : List Prune
  mNice : List Prune
  mWorstUidEnabled : Bool
  mWorstPidOfSystemEnabled : Bool

namespace PruneList

/-- `naughty(element)`. -/
def naughty (list : PruneList) (e : LogBufferElement) : Bool :=
  list.mNaughty.any fun p => p.cmp e = 0

/-- `nice(element)`. -/
def nice (list : PruneList) (e : LogBufferElement) : Bool :=
  list.mNice.any fun p => p.cmp e = 0

/-- `(id != LOG_ID_SECURITY) && naughty()`. -/
def hasBlacklist (list : PruneList) (id : LogId) : Bool :=
  id ≠ .security ∧ list.mNaughty ≠ []

/-- `(id != LOG_ID_SECURITY) && nice()`. -/
def hasWhitelist (list : PruneList) (id : LogId) : Bool :=
  id ≠ .security ∧ list.mNice ≠ []

end PruneList

/-! ### The list and its iterators -/

/-- A node of `mLogElements`. -/
structure Node where
  ref : Nat
  elem : LogBufferElement
deriving DecidableEq, Repr

/-- The node with its element dropped. -/
def Node.setDropped (n : Node) (value : UInt16) : Node :=
  { n with elem := n.elem.setDropped value }

/-- The key of an element in `mLastWorst`: the tag or the uid. -/
def LogBufferElement.key (e : LogBufferElement) : UInt32 :=
  if e.isBinary then e.getTag else e.mUid

/-- The stored part of `LogBuffer`. -/
structure Store where
  mLogElements : List Node
  nextRef : Nat
  stats : LogStatistics
  mLast : LogId → Option Nat
  mLastWorst : LogId → UInt32 → Option Nat
  mLastWorstPidOfSystem : LogId → UInt32 → Option Nat
  mMaxSize : LogId → Nat
  mPrune : PruneList
  mTimes : List LogTimeEntry

/-- The iterator behind `ref`. -/
def refAfter (ref : Nat) : List Node → Option Nat
  | [] => none
  | n :: rest => if n.ref = ref then rest.head?.map Node.ref else refAfter ref rest

/-- `found` in an iterator map goes away if it is `ref`. -/
def forget (map : UInt32 → Option Nat) (key : UInt32) (ref : Nat) : UInt32 → Option Nat :=
  fun k => if k = key ∧ map k = some ref then none else map k

namespace Store

/-- The constructor, with the sizes and lists that `init` reads. -/
def new (enable : Bool) (maxSize : LogId → Nat) (prune : PruneList) : Store where
  mLogElements := []
  nextRef := 0
  stats := .new enable
  mLast := fun _ => none
  mLastWorst := fun _ _ => none
  mLastWorstPidOfSystem := fun _ _ => none
  mMaxSize := maxSize
  mPrune := prune
  mTimes := []

variable (s : Store)

/-- The element an iterator stands on. -/
def elemAt (ref : Nat) : Option LogBufferElement :=
  (s.mLogElements.find? fun n => n.ref = ref).map Node.elem

/-- `mLastSet[id] ? mLast[id] : mLogElements.begin()`, to the end. -/
def fromLast (id : LogId) : List Node :=
  (s.mLast id).elim s.mLogElements fun ref => s.mLogElements.dropWhile fun n => n.ref ≠ ref

/-- `mLast[id]` is set to `it`, unless it is set to an element of `id` already. -/
def markLast (id : LogId) (it : Node) : Store :=
  if (s.mLast id).any fun ref => (s.elemAt ref).any fun e => e.mLogId = id then s
  else { s with mLast := update s.mLast id fun _ => some it.ref }

/-- `mLastWorst[id][key] = it`. -/
def setLastWorst (id : LogId) (key : UInt32) (it : Node) : Store :=
  { s with
    mLastWorst := update s.mLastWorst id fun map k => if k = key then some it.ref else map k }

/-- `mLastWorstPidOfSystem[id][pid] = it`. -/
def setLastWorstPid (id : LogId) (pid : UInt32) (it : Node) : Store :=
  { s with
    mLastWorstPidOfSystem :=
      update s.mLastWorstPidOfSystem id fun map k => if k = pid then some it.ref else map k }

/-- `setDropped` of the element `ref` stands on. -/
def setDropped (ref : Nat) (value : UInt16) : Store :=
  { s with
    mLogElements := s.mLogElements.map fun n => if n.ref = ref then n.setDropped value else n }

/-- `erase`. The iterators to `it` go away or move on to the next element. -/
def erase (it : Node) (coalesce : Bool) : Store :=
  let e := it.elem
  let next := refAfter it.ref s.mLogElements
  { s with
    mLogElements := s.mLogElements.eraseP fun n => n.ref = it.ref
    mLast := fun i => if s.mLast i = some it.ref then next else s.mLast i
    mLastWorst := update s.mLastWorst e.mLogId fun map => forget map e.key it.ref
    mLastWorstPidOfSystem :=
      update s.mLastWorstPidOfSystem e.mLogId fun map => forget map e.mPid it.ref
    stats := if coalesce then s.stats.erase e else s.stats.subtract e }

/-! ### `log(LogBufferElement*)` -/

/-- `end_always`, or `end` if it is set: where the readers keep the list from being
changed. -/
def readersEnd : List LogTimeEntry → Option LogTime → Bool × Option LogTime
  | [], stop => (false, stop)
  | entry :: rest, stop =>
    if entry.owned = false then readersEnd rest stop
    else if entry.mNonBlock = false then (true, stop)
    else readersEnd rest (if stop.all fun t => t ≤ entry.mEnd then some entry.mEnd else stop)

/-- The walk back from the end. `it` is the iterator, `before` the nodes before it, the
nearest first, and `behind` the nodes after it. The new node is put before the first
node of the result's second part. -/
def walkBack (stop : Option LogTime) (time : LogTime) :
    List Node → Node → List Node → List Node × List Node
  | [], it, behind => ([], it :: behind)
  | prev :: before, it, behind =>
    if time < prev.elem.mRealTime ∧ stop.all fun t => t ≤ prev.elem.mRealTime then
      walkBack stop time before prev (it :: behind)
    else ((prev :: before).reverse, it :: behind)

/-- `too_far_back`. -/
def tooFarBack : UInt32 := 5

/-- Where the new element goes: what stands before it and what stands behind it. -/
def position (e : LogBufferElement) : List Node × List Node :=
  match s.mLogElements.reverse with
  | it :: prev :: before =>
    let last := it.elem
    if last.mRealTime ≤ e.mRealTime ∨
        (e.mRealTime.tvSec < last.mRealTime.tvSec - tooFarBack ∧
          e.mLogId ≠ .kernel ∧ last.mLogId ≠ .kernel) then (s.mLogElements, [])
    else
      let stop := readersEnd s.mTimes none
      if stop.1 ∨ stop.2.any fun t => last.mRealTime < t then (s.mLogElements, [])
      else walkBack stop.2 e.mRealTime (prev :: before) it []
  -- the only element of a list is not looked at
  | _ => (s.mLogElements, [])

/-- `log(LogBufferElement*)`, up to `maybePrune`. -/
def insert (e : LogBufferElement) : Store :=
  let pos := s.position e
  { s with
    mLogElements := pos.1 ++ ⟨s.nextRef, e⟩ :: pos.2
    nextRef := s.nextRef + 1
    stats := s.stats.add e }

end Store

end AndroidCore.Logd
