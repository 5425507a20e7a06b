import Mathlib.Tactic.Ring

/-!
# `AndroidCore.Libmemunreachable.HeapWalker`: finding the leaked allocations

The model of `HeapWalker.h` and `HeapWalker.cpp`. A walker is told the allocations of a
heap and the roots that may hold pointers into it. `detectLeaks` marks every allocation
that a root refers to, directly or through other allocations, and `leaked` lists the
allocations without a mark.

* `AllocationMap` is the `std::map` of the allocations, in the order of its keys. The
  comparator `compareRange` makes ranges that overlap equivalent.
* `Process` is the memory that the walker reads. A page that cannot be read is mapped over
  with a zero page by the signal handler, so every word has a value. This assumes that
  `MapOverPage` succeeds: where it fails, the handler restores the previous action for the
  signal, which by default ends the process at the same read. The array of `root_vals_` lies
  in that memory too, at an address the allocator has chosen.
* Addresses are numbers below `2 ^ 64`, and the arithmetic on them wraps as that of
  `uintptr_t`.

The loops take a bound on their iterations and return `none` when it does not suffice,
since `forEachPtrInRange` need not end.
-/

namespace AndroidCore.Libmemunreachable

/-- `sizeof(uintptr_t)`. -/
def wordSize : Nat := 8

/-- The number of values of a `uintptr_t`. -/
def addressSpace : Nat := 2 ^ 64

/-- A range `[begin, end)`. -/
structure Range where
  begin : Nat
  stop : Nat
  deriving DecidableEq, Repr

/-- `Range::size`. -/
def Range.size (r : Range) : Nat := (r.stop + addressSpace - r.begin) % addressSpace

/-- The comparator of the map: equivalence is overlap. -/
def compareRange (a b : Range) : Bool := a.stop ≤ b.begin

/-- `HeapWalker::AllocationInfo`. -/
structure AllocationInfo where
  referencedFromRoot : Bool
  deriving DecidableEq, Repr

/-- The map of the allocations, in the order of its keys. -/
abbrev AllocationMap := List (Range × AllocationInfo)

namespace AllocationMap

/-- `map::find`: the first entry that is not less than the key, if it is equivalent. -/
def find (key : Range) : AllocationMap → Option (Range × AllocationInfo)
  | [] => none
  | e :: rest =>
    if compareRange e.1 key then find key rest
    else if compareRange key e.1 then none
    else some e

/-- `map::insert`; `none` when an equivalent key is there. -/
def insert (key : Range) (info : AllocationInfo) : AllocationMap → Option AllocationMap
  | [] => some [(key, info)]
  | e :: rest =>
    if compareRange e.1 key then (insert key info rest).map (e :: ·)
    else if compareRange key e.1 then some ((key, info) :: e :: rest)
    else none

/-- Sets `referenced_from_root` in the entry of a key. -/
def setReferenced (key : Range) (map : AllocationMap) : AllocationMap :=
  map.map fun e => if e.1 = key then (e.1, ⟨true⟩) else e

end AllocationMap

/-- The memory of the process: its words, and where the array of `root_vals_` lies. -/
structure Process where
  word : Nat → Nat
  rootValsData : Nat

/-- `HeapWalker`. -/
structure HeapWalker where
  allocations : AllocationMap
  allocationBytes : Nat
  validAllocationsRange : Range
  roots : List Range
  rootVals : List Nat
  deriving DecidableEq, Repr

namespace HeapWalker

/-- The constructor: the valid range is empty, from `~0` to 0. -/
def new : HeapWalker where
  allocations := []
  allocationBytes := 0
  validAllocationsRange := ⟨addressSpace - 1, 0⟩
  roots := []
  rootVals := []

/-- The range that `HeapWalker::Allocation` registers: an empty one gets one byte. -/
def normalRange (begin stop : Nat) : Range :=
  if stop = begin then ⟨begin, (begin + 1) % addressSpace⟩ else ⟨begin, stop⟩

/-- `HeapWalker::Allocation`. -/
def allocation (w : HeapWalker) (begin stop : Nat) : Bool × HeapWalker :=
  let range := normalRange begin stop
  match w.allocations.insert range ⟨false⟩ with
  | some allocations =>
    (true, { w with
      allocations
      validAllocationsRange :=
        ⟨min w.validAllocationsRange.begin range.begin, max w.validAllocationsRange.stop range.stop⟩
      allocationBytes := (w.allocationBytes + range.size) % addressSpace })
  | none => (false, w)

/-- `HeapWalker::Root(begin, end)`. -/
def root (w : HeapWalker) (begin stop : Nat) : HeapWalker :=
  { w with roots := w.roots ++ [⟨begin, stop⟩] }

/-- `HeapWalker::Root(vals)`. -/
def rootValues (w : HeapWalker) (vals : List Nat) : HeapWalker :=
  { w with rootVals := w.rootVals ++ vals }

/-- The word at an address: one of `root_vals_` inside of its array. -/
def readWord (w : HeapWalker) (p : Process) (addr : Nat) : Nat :=
  if p.rootValsData ≤ addr ∧ addr < p.rootValsData + w.rootVals.length * wordSize then
    w.rootVals.getD ((addr - p.rootValsData) / wordSize) 0
  else p.word addr

/-- `HeapWalker::WordContainsAllocationPtr`. -/
def wordContainsAllocationPtr (w : HeapWalker) (p : Process) (wordPtr : Nat) :
    Option (Range × AllocationInfo) :=
  let value := w.readWord p wordPtr
  if w.validAllocationsRange.begin ≤ value ∧ value < w.validAllocationsRange.stop then
    w.allocations.find ⟨value, (value + 1) % addressSpace⟩
  else none

/-- The body of `ForEachPtrInRange`. The state `s` of the caller holds the walker, whose
entries the callback `f` may change. -/
def forEachPtrStep {σ : Type} (p : Process) (walker : σ → HeapWalker)
    (f : σ → Range × AllocationInfo → σ) (i : Nat) (s : σ) : σ :=
  match (walker s).wordContainsAllocationPtr p i with
  | some ref => f s ref
  | none => s

/-- The loop of `ForEachPtrInRange` from the address `i` on. -/
def forEachPtrLoop {σ : Type} (p : Process) (walker : σ → HeapWalker)
    (f : σ → Range × AllocationInfo → σ) (stop : Nat) : Nat → Nat → σ → Option σ
  | 0, _, _ => none
  | fuel + 1, i, s =>
    if i < stop then
      forEachPtrLoop p walker f stop fuel ((i + wordSize) % addressSpace)
        (forEachPtrStep p walker f i s)
    else some s

/-- The first address that `ForEachPtrInRange` reads: `begin` rounded up to a word. -/
def alignedBegin (range : Range) : Nat :=
  (range.begin + (wordSize - 1)) % addressSpace / wordSize * wordSize

/-- `HeapWalker::ForEachPtrInRange`. -/
def forEachPtrInRange {σ : Type} (p : Process) (walker : σ → HeapWalker)
    (f : σ → Range × AllocationInfo → σ) (bound : Nat) (range : Range) (s : σ) : Option σ :=
  forEachPtrLoop p walker f range.stop bound (alignedBegin range) s

/-- The callback of `RecurseRoot`, over the walker and the vector `to_do`, with its back in
front. -/
def markReferenced (s : HeapWalker × List Range) (ref : Range × AllocationInfo) :
    HeapWalker × List Range :=
  if ref.2.referencedFromRoot then s
  else ({ s.1 with allocations := s.1.allocations.setReferenced ref.1 }, ref.1 :: s.2)

/-- The loop of `RecurseRoot`. -/
def recurseLoop (p : Process) (bound : Nat) : Nat → HeapWalker × List Range → Option HeapWalker
  | 0, _ => none
  | _ + 1, (w, []) => some w
  | fuel + 1, (w, range :: todo) => do
      let s ← forEachPtrInRange p Prod.fst markReferenced bound range (w, todo)
      recurseLoop p bound fuel s

/-- `HeapWalker::RecurseRoot`. -/
def recurseRoot (p : Process) (bound : Nat) (w : HeapWalker) (root : Range) : Option HeapWalker :=
  recurseLoop p bound bound (w, [root])

/-- The range of the array of `root_vals_`. -/
def valsRange (w : HeapWalker) (p : Process) : Range :=
  ⟨p.rootValsData, (p.rootValsData + w.rootVals.length * wordSize) % addressSpace⟩

/-- `HeapWalker::DetectLeaks`. -/
def detectLeaks (w : HeapWalker) (p : Process) (bound : Nat) : Option HeapWalker := do
  let w ← w.roots.foldlM (recurseRoot p bound) w
  recurseRoot p bound w (w.valsRange p)

/-- What `HeapWalker::Leaked` returns. -/
structure LeakReport where
  leaked : List Range
  numLeaks : Nat
  leakBytes : Nat
  deriving DecidableEq, Repr

/-- The first loop of `Leaked`: the number of the leaks and their bytes. -/
def countLeak (totals : Nat × Nat) (e : Range × AllocationInfo) : Nat × Nat :=
  if e.2.referencedFromRoot then totals
  else (totals.1 + 1, (totals.2 + e.1.size) % addressSpace)

/-- The second loop of `Leaked`: the list of the leaks, and the counter `n`. -/
def listLeak (limit : Nat) (found : List Range × Nat) (e : Range × AllocationInfo) :
    List Range × Nat :=
  if e.2.referencedFromRoot then found
  else (if found.2 < limit then found.1 ++ [e.1] else found.1, found.2 + 1)

/-- `HeapWalker::Leaked`. -/
def leaked (w : HeapWalker) (limit : Nat) : LeakReport :=
  let totals := w.allocations.foldl countLeak (0, 0)
  { leaked := (w.allocations.foldl (listLeak limit) ([], 0)).1
    numLeaks := totals.1
    leakBytes := totals.2 }

/-- A call on a walker before its leaks are detected. -/
inductive Call where
  | allocation (begin stop : Nat)
  | root (begin stop : Nat)
  | rootValues (vals : List Nat)
  deriving DecidableEq, Repr

/-- The walker after a call. -/
def call (w : HeapWalker) : Call → HeapWalker
  | .allocation begin stop => (w.allocation begin stop).2
  | .root begin stop => w.root begin stop
  | .rootValues vals => w.rootValues vals

/-- The walker after a sequence of calls. -/
def calls (cs : List Call) : HeapWalker := cs.foldl call new

end HeapWalker

end AndroidCore.Libmemunreachable
