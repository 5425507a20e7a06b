import AndroidCore.Logd.LogBuffer
import Mathlib.Data.List.AList

/-!
# `AndroidCore.Logd.LogStatistics`: what `logd` counts

`LogStatistics` keeps, for each log, the size and the number of the stored elements
and how many of them are chatty, and the size and the dropped count of each uid, of
each pid of the system uid and of each tag. `prune` reads them to find the worst
offender.

Only what pruning reads is modelled. The lifetime totals, the oldest and newest
times, the tables of pids, tids, tag names and security tags and the names in an entry
are for the reports. The counters are `size_t`. They count what is in memory and do
not pass its end, so only a subtraction that falls below 0 wraps.
-/

namespace AndroidCore.Logd

/-- `AID_ROOT`. -/
def aidRoot : UInt32 := 0

/-- `AID_SYSTEM`. -/
def aidSystem : UInt32 := 1000

/-- `a - b` in a `size_t`. -/
@[irreducible] def sizeSub (a b : Nat) : Nat :=
  if b ≤ a then a - b else a + 18446744073709551616 - b

/-- One field of a table by log is changed. -/
def update {α : Type} (table : LogId → α) (id : LogId) (f : α → α) : LogId → α :=
  fun i => if i = id then f (table i) else table i

/-! ### `LogHashtable` -/

/-- `EntryBaseDropped`, with the uid that `UidEntry`, `PidEntry` and `TagEntry` have. -/
structure Entry where
  uid : UInt32
  size : Nat
  dropped : Nat
deriving DecidableEq, Repr

namespace Entry

/-- The constructor. -/
def new (e : LogBufferElement) : Entry := ⟨e.mUid, e.getMsgLen.toNat, e.getDropped.toNat⟩

/-- `add`. The three kinds of entry differ in the uid they have afterwards. -/
def add (uid : UInt32) (entry : Entry) (e : LogBufferElement) : Entry where
  uid := uid
  size := entry.size + e.getMsgLen.toNat
  dropped := entry.dropped + e.getDropped.toNat

/-- `subtract`. -/
def subtract (entry : Entry) (e : LogBufferElement) : Entry :=
  { entry with
    size := sizeSub entry.size e.getMsgLen.toNat
    dropped := sizeSub entry.dropped e.getDropped.toNat }

/-- `drop`. -/
def drop (entry : Entry) (e : LogBufferElement) : Entry :=
  { entry with
    size := sizeSub entry.size e.getMsgLen.toNat
    dropped := entry.dropped + 1 }

end Entry

/-- `LogHashtable`. -/
abbrev LogHashtable := AList fun _ : UInt32 => Entry

namespace LogHashtable

/-- `add`. `join` is the uid of an entry that takes another element. -/
def add (join : UInt32 → UInt32 → UInt32) (table : LogHashtable) (key : UInt32)
    (e : LogBufferElement) : LogHashtable :=
  match table.lookup key with
  | none => table.insert key (.new e)
  | some entry => table.insert key (entry.add (join entry.uid e.mUid) e)

/-- `subtract`. An entry that counts nothing any more is erased. -/
def subtract (table : LogHashtable) (key : UInt32) (e : LogBufferElement) : LogHashtable :=
  match table.lookup key with
  | none => table
  | some entry =>
    let entry := entry.subtract e
    if entry.size = 0 ∧ entry.dropped = 0 then table.erase key else table.insert key entry

/-- `drop`. -/
def drop (table : LogHashtable) (key : UInt32) (e : LogBufferElement) : LogHashtable :=
  match table.lookup key with
  | none => table
  | some entry => table.insert key (entry.drop e)

/-- The two places of `sort`, and one more entry. -/
def place (sorted : Option (UInt32 × Entry) × Option (UInt32 × Entry)) (x : UInt32 × Entry) :
    Option (UInt32 × Entry) × Option (UInt32 × Entry) :=
  let passes : Option (UInt32 × Entry) → Bool := fun y => y.all fun y => y.2.size < x.2.size
  if passes sorted.2 = false then sorted
  else if passes sorted.1 then (some x, sorted.1)
  else (sorted.1, some x)

/-- `sort` with two places. `order` is the order in which the table is walked. -/
def sort (order : List (UInt32 × Entry) → List (UInt32 × Entry)) (table : LogHashtable)
    (uid : UInt32) : Option (UInt32 × Entry) × Option (UInt32 × Entry) :=
  ((order (table.entries.map fun x => (x.1, x.2))).filter fun x =>
    uid = aidRoot || uid = x.2.uid).foldl place (none, none)

end LogHashtable

/-! ### `LogFindWorst` -/

/-- `worst == -1`: there is no worst offender. -/
def noWorst : UInt32 := 0xFFFFFFFF

/-- `findWorst` with a threshold: the key, its size and the size of the second one. -/
def findWorst (sorted : Option (UInt32 × Entry) × Option (UInt32 × Entry)) (threshold : Nat) :
    UInt32 × Nat × Nat :=
  match sorted with
  | (some a, some b) =>
    if threshold < a.2.size ∧ 10 * a.2.dropped < a.2.size then
      (a.1, a.2.size, max b.2.size threshold)
    else (noWorst, a.2.size, 0)
  | _ => (noWorst, 0, 0)

/-- `findWorst` for the pids of the system uid: the pid, 0 for none, and the size to
get below. -/
def findWorstPid (sorted : Option (UInt32 × Entry) × Option (UInt32 × Entry))
    (worstSizes secondWorstSizes : Nat) : UInt32 × Nat :=
  match sorted with
  | (some a, some b) => (a.1, sizeSub worstSizes a.2.size + b.2.size)
  | _ => (0, secondWorstSizes)

/-! ### `LogStatistics` -/

/-- `LogStatistics`. -/
structure LogStatistics where
  enable : Bool
  mSizes : LogId → Nat
  mElements : LogId → Nat
  mDroppedElements : LogId → Nat
  uidTable : LogId → LogHashtable
  pidSystemTable : LogId → LogHashtable
  tagTable : LogHashtable

namespace LogStatistics

/-- The constructor. -/
def new (enable : Bool) : LogStatistics where
  enable := enable
  mSizes := fun _ => 0
  mElements := fun _ => 0
  mDroppedElements := fun _ => 0
  uidTable := fun _ => ∅
  pidSystemTable := fun _ => ∅
  tagTable := ∅

/-- The tables that `add`, `subtract` and `drop` reach in the same way. `kernel` says
whether they look at the kernel log. -/
def tables (stats : LogStatistics) (e : LogBufferElement) (kernel : Bool)
    (uids pids tags : LogHashtable → UInt32 → LogBufferElement → LogHashtable) :
    LogStatistics :=
  let id := e.mLogId
  if id = .kernel ∧ kernel = false then stats
  else
    { stats with
      uidTable := update stats.uidTable id fun t => uids t e.mUid e
      pidSystemTable :=
        if e.mUid = aidSystem then update stats.pidSystemTable id fun t => pids t e.mPid e
        else stats.pidSystemTable
      tagTable :=
        if stats.enable ∧ e.getTag ≠ 0 ∧ id ≠ .security then tags stats.tagTable e.getTag e
        else stats.tagTable }

/-- `add`. -/
def add (stats : LogStatistics) (e : LogBufferElement) : LogStatistics :=
  { stats with
    mSizes := update stats.mSizes e.mLogId (· + e.getMsgLen.toNat)
    mElements := update stats.mElements e.mLogId (· + 1)
    mDroppedElements :=
      if e.getDropped ≠ 0 then update stats.mDroppedElements e.mLogId (· + 1)
      else stats.mDroppedElements }
    |>.tables e false
      (LogHashtable.add fun uid _ => uid)
      (LogHashtable.add fun _ incomingUid => incomingUid)
      (LogHashtable.add fun uid elementUid => if uid ≠ elementUid then 0xFFFFFFFF else uid)

/-- `subtract`. -/
def subtract (stats : LogStatistics) (e : LogBufferElement) : LogStatistics :=
  { stats with
    mSizes := update stats.mSizes e.mLogId (sizeSub · e.getMsgLen.toNat)
    mElements := update stats.mElements e.mLogId (sizeSub · 1)
    mDroppedElements :=
      if e.getDropped ≠ 0 then update stats.mDroppedElements e.mLogId (sizeSub · 1)
      else stats.mDroppedElements }
    |>.tables e false .subtract .subtract .subtract

/-- `drop`, before the element becomes a chatty one. -/
def drop (stats : LogStatistics) (e : LogBufferElement) : LogStatistics :=
  { stats with
    mSizes := update stats.mSizes e.mLogId (sizeSub · e.getMsgLen.toNat)
    mDroppedElements := update stats.mDroppedElements e.mLogId (· + 1) }
    |>.tables e true .drop .drop .drop

/-- `erase`, of a chatty element that another one took in. -/
def erase (stats : LogStatistics) (e : LogBufferElement) : LogStatistics :=
  { stats with
    mElements := update stats.mElements e.mLogId (sizeSub · 1)
    mDroppedElements := update stats.mDroppedElements e.mLogId (sizeSub · 1) }

/-- `realElements`. -/
def realElements (stats : LogStatistics) (id : LogId) : Nat :=
  sizeSub (stats.mElements id) (stats.mDroppedElements id)

end LogStatistics

end AndroidCore.Logd
