import AndroidCore.Logd.LogElements

/-!
# `AndroidCore.Logd.Prune`: `LogBuffer::prune` and `LogBuffer::clear`

`prune` expires elements of one log, the oldest first. A reader of the log holds it back
at a watermark. For an unprivileged caller it erases the caller's elements. Otherwise
three loops follow. The first one, batch by batch, erases blacklisted elements and turns
elements of the worst offender into chatty ones, which are merged where they come from
the same thread. The second one expires straight from the oldest element on and spares
the whitelist. The third one does not.

The first loop is a recursion with fuel, since its batches are repeated for as long as
they find an offender. It is never short of fuel (`Proofs.Logd.Prune`). Its blacklist
branch reads an element that was deleted one line before, and `PruneEnv.freed` is what it
reads.
-/

namespace AndroidCore.Logd

/-- `ULONG_MAX`: all rows are to go. -/
def ulongMax : Nat := 18446744073709551615

/-- What `prune` depends on besides the buffer: the order in which a table is walked, and
`getMsgLen` of an element that is deleted. -/
structure PruneEnv where
  order : List (UInt32 × Entry) → List (UInt32 × Entry)
  freed : LogBufferElement → UInt16

/-! ### `LogBufferElementLast` -/

/-- `LogBufferElementKey`: a uid, a pid and a tid, the last two cut to 16 bits. -/
structure LogBufferElementKey where
  uid : UInt32
  pid : UInt16
  tid : UInt16
deriving DecidableEq, Repr

/-- The key of an element. -/
def LogBufferElement.lastKey (e : LogBufferElement) : LogBufferElementKey :=
  ⟨e.mUid, e.mPid.toUInt16, e.mTid.toUInt16⟩

/-- `LogBufferElementLast`: the last chatty element of each thread. -/
abbrev LogBufferElementLast := LogBufferElementKey → Option Nat

namespace LogBufferElementLast

/-- `EXPIRE_THRESHOLD`. -/
def expireThreshold : UInt16 := 10

/-- `log_time(EXPIRE_RATELIMIT, 0)`. -/
def expireRatelimit : LogTime := ⟨10, 0⟩

/-- `map[key] = value`, or without the key. -/
def set (last : LogBufferElementLast) (key : LogBufferElementKey) (value : Option Nat) :
    LogBufferElementLast :=
  fun k => if k = key then value else last k

/-- `add`. -/
def add (last : LogBufferElementLast) (it : Node) : LogBufferElementLast :=
  last.set it.elem.lastKey (some it.ref)

/-- `clear(element)`: entries with a count that is high and a time that is long ago go. -/
def clear (last : LogBufferElementLast) (s : Store) (e : LogBufferElement) : LogBufferElementLast :=
  let current := e.mRealTime - expireRatelimit
  fun k => (last k).filter fun ref => (s.elemAt ref).all fun found =>
    found.getDropped < expireThreshold ∨ found.mRealTime ≥ current

end LogBufferElementLast

/-! ### Readers that hold back -/

/-- What stays the same in `prune`: the log, and `oldest` with the watermark. -/
structure Region where
  id : LogId
  oldest : Option (Nat × LogTime)

namespace Region

/-- `oldest && (watermark <= element->getRealTime())`. -/
def blocks (p : Region) (e : LogBufferElement) : Bool :=
  p.oldest.any fun o => o.2 ≤ e.mRealTime

end Region

namespace Store

variable (s : Store)

/-- The start of `prune`. -/
def region (id : LogId) : Region where
  id := id
  oldest := (oldestReader id s.mTimes 0 none).map fun o => (o.1, o.2.mStart - pruneMargin)

/-- `isBusy`. -/
def isBusy (watermark : LogTime) : Bool :=
  s.mLogElements.getLast?.any fun n =>
    watermark < n.elem.mRealTime - pruneMargin - ⟨1, 0⟩

/-- `kickMe`, for the reader at `index`. -/
def kickMe (index : Nat) (id : LogId) (pruneRows : Nat) : Store :=
  { s with
    mTimes := s.mTimes.modify index fun me =>
      if 2 * s.mMaxSize id < s.stats.mSizes id then me.release
      else if me.timeoutSet then me
      else me.triggerSkip id (UInt32.ofNat pruneRows) }

/-- The end of a loop at the watermark: `busy`, and `kickMe` if `mitigate` allows it. -/
def stopAt (p : Region) (mitigate : Bool) (pruneRows : Nat) : Bool × Store :=
  match p.oldest with
  | none => (false, s)
  | some (index, watermark) =>
    let busy := s.isBusy watermark
    (busy, if mitigate && busy then s.kickMe index p.id pruneRows else s)

end Store

/-! ### The unprivileged loop -/

namespace Store

/-- The loop for a caller that is not root, from the given nodes on. -/
def pruneUid (p : Region) (callerUid : UInt32) : List Node → Nat → Store → Bool × Store
  | [], _, s => (false, s)
  | it :: rest, pruneRows, s =>
    if it.elem.mLogId ≠ p.id ∨ it.elem.mUid ≠ callerUid then
      pruneUid p callerUid rest pruneRows s
    else
      let s := s.markLast p.id it
      if p.blocks it.elem then s.stopAt p true pruneRows
      else
        let s := s.erase it false
        let pruneRows := sizeSub pruneRows 1
        if pruneRows = 0 then (false, s) else pruneUid p callerUid rest pruneRows s

end Store

/-! ### The first loop: blacklist and worst offender -/

/-- The worst offender: its key or `noWorst`, its pid or 0, and its size and the one of
the second worst. -/
structure Offender where
  worst : UInt32
  worstPid : UInt32
  worstSizes : Nat
  secondWorstSizes : Nat

/-- What stays the same in a batch of the first loop. `lastTime` is the time of the last
element. -/
structure Batch where
  region : Region
  worst : UInt32
  worstPid : UInt32
  secondWorstSizes : Nat
  gc : Bool
  lastTime : LogTime

/-- What a batch of the first loop changes. -/
structure Sweep where
  store : Store
  last : LogBufferElementLast
  pruneRows : Nat
  worstSizes : Nat
  kick : Bool
  leading : Bool
  busy : Bool

/-- `worstUidEnabledForLogid`. -/
def worstUidEnabledForLogid (id : LogId) : Bool :=
  id = .main ∨ id = .system ∨ id = .radio ∨ id = .events

/-- `too_old`. -/
def tooOld : LogTime := ⟨86400, 0⟩

namespace Store

/-- The worst offender is looked up. -/
def findOffender (env : PruneEnv) (s : Store) (id : LogId) : Offender :=
  if worstUidEnabledForLogid id = false ∨ s.mPrune.mWorstUidEnabled = false then
    ⟨noWorst, 0, 0, 0⟩
  else
    let threshold := s.mMaxSize id / 8
    if id = .events ∨ id = .security then
      let w := findWorst (s.stats.tagTable.sort env.order aidRoot) threshold
      ⟨w.1, 0, w.2.1, w.2.2⟩
    else
      let w := findWorst ((s.stats.uidTable id).sort env.order aidRoot) threshold
      if w.1 = aidSystem ∧ s.mPrune.mWorstPidOfSystemEnabled then
        let v := findWorstPid ((s.stats.pidSystemTable id).sort env.order w.1) w.2.1 w.2.2
        ⟨w.1, v.1, w.2.1, v.2⟩
      else ⟨w.1, 0, w.2.1, w.2.2⟩

/-- The nodes from where a batch starts, and `leading`: the remembered position of the
offender, if there is one, and otherwise the oldest element. -/
def batchStart (s : Store) (id : LogId) (o : Offender) (gc : Bool) : List Node × Bool :=
  let worst := if gc ∨ o.worst = noWorst then none else s.mLastWorst id o.worst
  let worstPid := if gc ∨ o.worst = noWorst ∨ o.worstPid = 0 then none
    else s.mLastWorstPidOfSystem id o.worstPid
  (worstPid.or worst).elim (s.fromLast id, true) fun ref =>
    (s.mLogElements.dropWhile fun n => n.ref ≠ ref, false)

end Store

namespace Sweep

/-- `last.coalesce(element, dropped)`: whether a chatty element of the same thread took
the count. -/
def coalesce (w : Sweep) (it : Node) (dropped : UInt16) : Sweep × Bool :=
  match w.last it.elem.lastKey with
  | none => (w, false)
  | some ref =>
    let moreDropped := ((w.store.elemAt ref).map LogBufferElement.getDropped).getD 0
    if 65535 < dropped.toNat + moreDropped.toNat then
      ({ w with last := w.last.set it.elem.lastKey none }, false)
    else ({ w with store := w.store.setDropped ref (dropped + moreDropped) }, true)

/-- `erase(it, coalesce)`. -/
def erase (w : Sweep) (it : Node) (coalesce : Bool) : Sweep :=
  { w with store := w.store.erase it coalesce }

/-- The end of an iteration that found the offender: whether the loop goes on. -/
def settle (w : Sweep) (b : Batch) (len : UInt16) : Sweep × Bool :=
  if w.worstSizes < b.secondWorstSizes then (w, false)
  else ({ w with worstSizes := sizeSub w.worstSizes len.toNat }, true)

/-- A blacklisted element. -/
def blacklisted (env : PruneEnv) (b : Batch) (w : Sweep) (it : Node) : Sweep × Bool :=
  let w := { w with last := w.last.clear w.store it.elem }.erase it false
  if it.elem.getDropped ≠ 0 then (w, true)
  else
    let w := { w with pruneRows := w.pruneRows - 1 }
    if w.pruneRows = 0 then (w, false)
    else if it.elem.key = b.worst then { w with kick := true }.settle b (env.freed it.elem)
    else (w, true)

/-- A chatty element that stays. -/
def keepChatty (b : Batch) (w : Sweep) (it : Node) : Sweep :=
  let id := b.region.id
  let s := w.store
  let s := if b.worstPid ≠ 0 ∧
      ((b.gc = false ∧ it.elem.mPid = b.worstPid) ∨
        s.mLastWorstPidOfSystem id it.elem.mPid = none) then
    s.setLastWorstPid id it.elem.mPid it else s
  let s := if (b.gc = false ∧ b.worstPid = 0 ∧ it.elem.key = b.worst) ∨
      s.mLastWorst id it.elem.key = none then
    s.setLastWorst id it.elem.key it else s
  { w with store := s, last := w.last.add it }

/-- An element of the offender becomes a chatty one, which stays. -/
def keepDropped (b : Batch) (w : Sweep) (it : Node) : Sweep :=
  let id := b.region.id
  let s := w.store
  let s := if b.worstPid ≠ 0 ∧ (b.gc = false ∨ s.mLastWorstPidOfSystem id b.worstPid = none) then
    s.setLastWorstPid id b.worstPid it else s
  let s := if (b.gc = false ∧ b.worstPid = 0) ∨ s.mLastWorst id b.worst = none then
    s.setLastWorst id b.worst it else s
  { w with store := s, last := w.last.add it }

/-- `stats.drop(element)` and `element->setDropped(1)`. -/
def drop (w : Sweep) (it : Node) : Sweep :=
  { w with store := { w.store with stats := w.store.stats.drop it.elem }.setDropped it.ref 1 }

/-- An element of the offender. -/
def offending (b : Batch) (w : Sweep) (it : Node) : Sweep × Bool :=
  let w := { w with pruneRows := w.pruneRows - 1 }
  if w.pruneRows = 0 then (w, false)
  else
    let w := { w with kick := true }
    let len := it.elem.getMsgLen
    if w.leading then (w.erase it false).settle b len -- do not create any leading drops
    else
      let chatty := it.setDropped 1
      let merged := (w.drop it).coalesce chatty 1
      if merged.2 then (merged.1.erase chatty true).settle b len
      else (merged.1.keepDropped b chatty).settle b len

/-- An element that is neither a leading drop nor merged. -/
def classify (env : PruneEnv) (b : Batch) (w : Sweep) (it : Node) : Sweep × Bool :=
  let e := it.elem
  if w.store.mPrune.hasBlacklist b.region.id ∧ w.store.mPrune.naughty e then
    w.blacklisted env b it
  else if e.mRealTime < b.lastTime - tooOld ∨ b.lastTime < e.mRealTime then (w, false)
  else if e.getDropped ≠ 0 then (w.keepChatty b it, true)
  else if e.key ≠ b.worst ∨ (b.worstPid ≠ 0 ∧ e.mPid ≠ b.worstPid) then
    ({ w with leading := false, last := w.last.clear w.store e }, true)
  else w.offending b it

/-- An element of the log that is not held back. -/
def visit (env : PruneEnv) (b : Batch) (w : Sweep) (it : Node) : Sweep × Bool :=
  let dropped := it.elem.getDropped
  if w.leading ∧ dropped ≠ 0 then (w.erase it false, true) -- remove any leading drops
  else if dropped = 0 then w.classify env b it
  else
    let merged := w.coalesce it dropped
    if merged.2 then (merged.1.erase it true, true) else merged.1.classify env b it

/-- One iteration of a batch: whether the loop goes on. -/
def step (env : PruneEnv) (b : Batch) (w : Sweep) (it : Node) : Sweep × Bool :=
  if b.region.blocks it.elem then
    ({ w with busy := (w.store.stopAt b.region false w.pruneRows).1 }, false)
  else if it.elem.mLogId ≠ b.region.id then (w, true)
  else if w.leading then
    { w with store := w.store.markLast b.region.id it }.visit env b it
  else w.visit env b it

/-- A batch, from the given nodes on. -/
def run (env : PruneEnv) (b : Batch) : List Node → Sweep → Sweep
  | [], w => w
  | it :: rest, w =>
    let next := w.step env b it
    if next.2 then run env b rest next.1 else next.1

end Sweep

namespace Store

/-- `gc`: at least one mandatory garbage collection cycle is performed. -/
def gc (pruneRows : Nat) : Bool := pruneRows ≤ 1

/-- What stays the same in the next batch. -/
def batchOf (p : Region) (o : Offender) (pruneRows : Nat) (s : Store) : Batch where
  region := p
  worst := o.worst
  worstPid := o.worstPid
  secondWorstSizes := o.secondWorstSizes
  gc := gc pruneRows
  lastTime := (s.mLogElements.getLast?.map fun n => n.elem.mRealTime).getD .epoch

/-- The start of the next batch. -/
def sweepOf (o : Offender) (leading busy : Bool) (pruneRows : Nat) (s : Store) : Sweep where
  store := s
  last := fun _ => none
  pruneRows := pruneRows
  worstSizes := o.worstSizes
  kick := false
  leading := leading
  busy := busy

/-- One batch of the first loop. -/
def batch (env : PruneEnv) (p : Region) (o : Offender) (busy : Bool) (pruneRows : Nat)
    (s : Store) : Sweep :=
  let start := s.batchStart p.id o (gc pruneRows)
  Sweep.run env (s.batchOf p o pruneRows) start.1 (s.sweepOf o start.2 busy pruneRows)

/-- The first loop: `busy`, the rows that are left and the buffer. It is `none` when the
fuel does not suffice. -/
def pruneWorst (env : PruneEnv) (p : Region) :
    Nat → Bool → Nat → Store → Option (Bool × Nat × Store)
  | 0, _, _, _ => none
  | fuel + 1, busy, pruneRows, s =>
    if pruneRows = 0 then some (busy, pruneRows, s)
    else
      let o := s.findOffender env p.id
      -- skip if we have neither worst nor naughty filters
      if o.worst = noWorst ∧ s.mPrune.hasBlacklist p.id = false then some (busy, pruneRows, s)
      else
        let w := s.batch env p o busy pruneRows
        if w.kick = false ∨ w.store.mPrune.mWorstUidEnabled = false then
          some (w.busy, w.pruneRows, w.store)
        else pruneWorst env p fuel w.busy w.pruneRows w.store

end Store

/-! ### The second and the third loop -/

/-- What the loops that expire change. -/
structure Expiry where
  store : Store
  pruneRows : Nat
  busy : Bool
  whitelist : Bool

/-- The second loop, from the given nodes on. `nice` says which elements are spared. The
third loop is the same one with nothing spared. -/
def Expiry.run (p : Region) (nice : LogBufferElement → Bool) : List Node → Expiry → Expiry
  | [], w => w
  | it :: rest, w =>
    if w.pruneRows = 0 then w
    else if it.elem.mLogId ≠ p.id then Expiry.run p nice rest w
    else
      let s := w.store.markLast p.id it
      if p.blocks it.elem then
        let stop := s.stopAt p (!w.whitelist) w.pruneRows
        { w with store := stop.2, busy := stop.1 }
      else if it.elem.getDropped = 0 ∧ nice it.elem then
        Expiry.run p nice rest { w with store := s, whitelist := true }
      else
        Expiry.run p nice rest
          { w with store := s.erase it false, pruneRows := w.pruneRows - 1 }

namespace Store

/-- The second and the third loop, and the result of `prune`. -/
def expire (p : Region) (clearAll : Bool) (busy : Bool) (pruneRows : Nat) (s : Store) :
    Bool × Store :=
  let hasWhitelist := s.mPrune.hasWhitelist p.id && !clearAll
  let w := Expiry.run p (fun e => hasWhitelist && s.mPrune.nice e) (s.fromLast p.id)
    ⟨s, pruneRows, busy, false⟩
  -- do not save the whitelist if we are reader range limited
  let w := if w.whitelist ∧ 0 < w.pruneRows then
    Expiry.run p (fun _ => false) (w.store.fromLast p.id) { w with whitelist := false } else w
  (0 < w.pruneRows && w.busy, w.store)

/-- `prune`, with fuel for the first loop. -/
def pruneFuel (env : PruneEnv) (fuel : Nat) (s : Store) (id : LogId) (pruneRows : Nat)
    (callerUid : UInt32) : Option (Bool × Store) :=
  let p := s.region id
  let clearAll : Bool := pruneRows = ulongMax
  if callerUid ≠ aidRoot then some (pruneUid p callerUid (s.fromLast id) pruneRows s)
  else if clearAll then some (s.expire p true false pruneRows)
  else (pruneWorst env p fuel false pruneRows s).map fun r => r.2.2.expire p false r.1 r.2.1

/-- `prune`: whether a reader holds it back, and the buffer. -/
def prune (env : PruneEnv) (s : Store) (id : LogId) (pruneRows : Nat) (callerUid : UInt32) :
    Bool × Store :=
  (pruneFuel env (pruneRows + 1) s id pruneRows callerUid).getD (false, s)

/-! ### Callers of `prune` -/

/-- `minPrune`. -/
def minPrune : Nat := 4

/-- `maxPrune`. -/
def maxPrune : Nat := 256

/-- `maybePrune`. -/
def maybePrune (env : PruneEnv) (s : Store) (id : LogId) : Store :=
  let sizes := s.stats.mSizes id
  let maxSize := s.mMaxSize id
  if maxSize < sizes then
    let sizeOver := sizes - maxSize * 9 / 10
    let elements := s.stats.realElements id
    let minElements := max (elements / 100) minPrune
    let pruneRows := min (max (elements * sizeOver / sizes) minElements) maxPrune
    (s.prune env id pruneRows aidRoot).2
  else s

/-- `log(LogBufferElement*)`. -/
def log (env : PruneEnv) (s : Store) (e : LogBufferElement) : Store :=
  (s.insert e).maybePrune env e.mLogId

/-- The readers that watch `id` are released. -/
def releaseAll (s : Store) (id : LogId) : Store :=
  { s with mTimes := s.mTimes.map fun entry => if entry.holds id then entry.release else entry }

/-- The last pass of `clear`: one entry is pruned to see if a reader is still blocked. -/
def lastPass (env : PruneEnv) (s : Store) (id : LogId) (uid : UInt32) : Store :=
  let r := s.prune env id 1 uid
  if r.1 then r.2.releaseAll id else r.2

/-- `clear`, with `retry` passes left. `wake` gives the readers after a sleep. -/
def clear (env : PruneEnv) (wake : Nat → List LogTimeEntry) (id : LogId) (uid : UInt32) :
    Nat → Store → Bool × Store
  | 0, s => (true, s)
  | retry + 1, s =>
    let s := if retry = 0 then s.lastPass env id uid else s
    let r := s.prune env id ulongMax uid
    if r.1 = false ∨ retry = 0 then r
    else clear env wake id uid retry { r.2 with mTimes := wake retry }

end Store

/-! ### Runs -/

/-- The whole of `LogBuffer`: the slots that squash duplicates, and what is stored. -/
structure Buffer where
  slots : LogBuffer
  store : Store

/-- What happens to the buffer. A call of `log`, `prune` or `clear` comes with its
surroundings. `readers`, `setSize` and `initPrune` set the fields that other code sets. -/
inductive Op where
  | log (env : Env) (penv : PruneEnv) (m : Message)
  | prune (penv : PruneEnv) (id : LogId) (pruneRows : Nat) (callerUid : UInt32)
  | clear (penv : PruneEnv) (wake : Nat → List LogTimeEntry) (id : LogId) (uid : UInt32)
  | readers (times : List LogTimeEntry)
  | setSize (id : LogId) (size : Nat)
  | initPrune (list : PruneList)

namespace Buffer

/-- The constructor. -/
def new (enable : Bool) (maxSize : LogId → Nat) (prune : PruneList) : Buffer :=
  ⟨.new, .new enable maxSize prune⟩

/-- `LogBuffer::log`: the elements that come out of the slots are stored. -/
def log (env : Env) (penv : PruneEnv) (b : Buffer) (m : Message) : Buffer :=
  let slots := (b.slots.log env m).2
  ⟨slots, (slots.logged.drop b.slots.logged.length).foldl (Store.log penv) b.store⟩

/-- `LogBuffer::clear`: four passes. -/
def clear (penv : PruneEnv) (wake : Nat → List LogTimeEntry) (b : Buffer) (id : LogId)
    (uid : UInt32) : Buffer :=
  { b with store := (b.store.clear penv wake id uid 4).2 }

/-- One call. -/
def step (b : Buffer) : Op → Buffer
  | .log env penv m => b.log env penv m
  | .prune penv id pruneRows callerUid =>
    { b with store := (b.store.prune penv id pruneRows callerUid).2 }
  | .clear penv wake id uid => b.clear penv wake id uid
  | .readers times => { b with store := { b.store with mTimes := times } }
  | .setSize id size =>
    { b with store := { b.store with mMaxSize := update b.store.mMaxSize id fun _ => size } }
  | .initPrune list => { b with store := { b.store with mPrune := list } }

/-- A sequence of calls. -/
def run (b : Buffer) (ops : List Op) : Buffer := ops.foldl step b

end Buffer

end AndroidCore.Logd
