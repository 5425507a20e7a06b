import Mathlib.Init

/-!
# `AndroidCore.Libunwindstack.Unwinder`: the loop over the frames

`Unwinder::Unwind` with `FillInFrame`, `ShouldStop` and `Maps::Find`. One iteration
looks up the map of the pc, adds a frame unless the map is one of those to skip, and
steps to the caller. If the step fails, it takes the return address once; the frame
found that way is speculative, and is removed when the next step fails too.

What the loop asks the registers and the ELF files for is in `World`. Its state is
of any type, so that the steps can do whatever the memory of the process induces:
repeat themselves, depend on what was asked before, or change the registers and fail.
-/

namespace AndroidCore.Libunwindstack

/-- The characters of a `std::string`. -/
abbrev Name := List Char

/-- `MapInfo`, without the ELF object it caches. -/
structure MapInfo where
  start : UInt64
  stop : UInt64
  offset : UInt64
  flags : UInt16
  name : Name
  elfOffset : UInt64
deriving DecidableEq, Repr

/-- `MAPS_FLAGS_DEVICE_MAP`. -/
def mapsFlagsDeviceMap : UInt16 := 0x8000

/-- The map is a device map. -/
def MapInfo.isDevice (m : MapInfo) : Bool := m.flags &&& mapsFlagsDeviceMap ≠ 0

/-- The search of `Maps::Find` between the positions `first` and `last`. Every round
halves the distance, so as many rounds as there are maps are enough. -/
def mapsFindLoop (maps : Array MapInfo) (pc : UInt64) : Nat → Nat → Nat → Option MapInfo
  | 0, _, _ => none
  | fuel + 1, first, last =>
    if first < last then
      let index := (first + last) / 2
      match maps[index]? with
      | none => none
      | some cur =>
        if cur.start ≤ pc ∧ pc < cur.stop then some cur
        else if pc < cur.start then mapsFindLoop maps pc fuel first index
        else mapsFindLoop maps pc fuel (index + 1) last
    else none

/-- `Maps::Find`. -/
def mapsFind (maps : Array MapInfo) (pc : UInt64) : Option MapInfo :=
  mapsFindLoop maps pc (maps.size + 1) 0 maps.size

/-- `FrameData`. -/
structure FrameData where
  num : Nat
  relPc : UInt64
  pc : UInt64
  sp : UInt64
  functionName : Name := []
  functionOffset : UInt64 := 0
  mapName : Name := []
  mapOffset : UInt64 := 0
  mapStart : UInt64 := 0
  mapEnd : UInt64 := 0
  mapLoadBias : UInt64 := 0
  mapFlags : UInt16 := 0
deriving DecidableEq, Repr

/-- What the loop asks for. `σ` is the state of the registers, the memory and the ELF
files. -/
structure World (σ : Type) where
  /-- `regs_->pc()`. -/
  pc : σ → UInt64
  /-- `regs_->sp()`. -/
  sp : σ → UInt64
  /-- `elf->GetRelPc`. -/
  relPc : σ → MapInfo → UInt64
  /-- `regs_->GetAdjustedPc`. -/
  adjustedPc : σ → UInt64 → MapInfo → UInt64
  /-- `elf->GetLoadBias`. -/
  loadBias : MapInfo → UInt64
  /-- `elf->GetFunctionName`: the name and the offset, if there is one. -/
  functionName : MapInfo → UInt64 → Option (Name × UInt64)
  /-- `elf->Step`: whether it stepped, whether that was the last frame, and the
  registers after it. -/
  step : σ → UInt64 → MapInfo → Bool × Bool × σ
  /-- `regs_->SetPcFromReturnAddress`. -/
  setPcFromReturnAddress : σ → Bool × σ

/-- `Unwinder`, with the arguments of `Unwind`. A null pointer to a list is `none`. -/
structure Unwinder (σ : Type) where
  world : World σ
  maps : Array MapInfo
  maxFrames : Nat
  initialMapNamesToSkip : Option (List Name)
  mapSuffixesToIgnore : Option (List Name)

/-- The variables of the loop. -/
structure UnwindState (σ : Type) where
  regs : σ
  frames : List FrameData
  initialMapNamesToSkip : Option (List Name)
  returnAddressAttempt : Bool
  adjustPc : Bool

/-- How an iteration ends: the loop goes on, it stops, or `frames_.pop_back()` is
called on an empty list, which has no defined meaning. -/
inductive Outcome (σ : Type) where
  | next (st : UnwindState σ)
  | stop (st : UnwindState σ)
  | popOnEmpty

/-- `basename`: what follows the last slash. -/
def basename (name : Name) : Name := (name.reverse.takeWhile (· ≠ '/')).reverse

/-- `ShouldStop`. -/
def shouldStop (mapSuffixesToIgnore : Option (List Name)) (mapName : Name) : Bool :=
  match mapSuffixesToIgnore with
  | none => false
  | some suffixes =>
    if '.' ∈ mapName then
      decide ((mapName.reverse.takeWhile (· ≠ '.')).reverse ∈ suffixes)
    else false

section
variable {σ : Type} (u : Unwinder σ)

/-- The frame `FillInFrame` adds behind `frames`. -/
def fillInFrame (regs : σ) (frames : List FrameData) (mapInfo : Option MapInfo)
    (relPc : UInt64) (adjustPc : Bool) : FrameData :=
  let frame : FrameData :=
    { num := frames.length, relPc := relPc, pc := u.world.pc regs, sp := u.world.sp regs }
  match mapInfo with
  | none => frame
  | some m =>
    -- Don't adjust the first frame pc.
    let adjusted := if adjustPc then u.world.adjustedPc regs relPc m else relPc
    let function := (u.world.functionName m adjusted).getD ([], 0)
    { frame with
      relPc := adjusted
      pc := frame.pc - (relPc - adjusted)
      mapName := m.name
      mapOffset := m.offset
      mapStart := m.start
      mapEnd := m.stop
      mapFlags := m.flags
      mapLoadBias := u.world.loadBias m
      functionName := function.1
      functionOffset := function.2 }

/-- The map of the pc is one of the initial maps to skip. -/
def skipsFrame (st : UnwindState σ) (mapInfo : Option MapInfo) : Bool :=
  match mapInfo, st.initialMapNamesToSkip with
  | some m, some names => decide (basename m.name ∈ names)
  | _, _ => false

/-- The part of an iteration that adds a frame. -/
def addFrame (st : UnwindState σ) (mapInfo : Option MapInfo) (relPc : UInt64) : UnwindState σ :=
  if skipsFrame st mapInfo then { st with adjustPc := true }
  else
    { st with
      frames := st.frames ++ [fillInFrame u st.regs st.frames mapInfo relPc st.adjustPc]
      -- Once a frame is added, stop skipping frames.
      initialMapNamesToSkip := none
      adjustPc := true }

/-- What a try to step can do. -/
inductive Stepped (σ : Type) where
  | finished (regs : σ)
  | stepped (regs : σ)
  | failed (inDeviceMap : Bool) (regs : σ)

/-- The part of an iteration that steps. -/
def tryStep (regs : σ) (mapInfo : Option MapInfo) (relPc : UInt64) : Stepped σ :=
  match mapInfo with
  | none => .failed false regs
  | some m =>
    if m.isDevice then .failed true regs
    else if (mapsFind u.maps (u.world.sp regs)).any MapInfo.isDevice then .failed true regs
    else
      match u.world.step regs relPc m with
      | (true, true, regs) => .finished regs
      | (true, false, regs) => .stepped regs
      | (false, _, regs) => .failed false regs

/-- The end of an iteration: if the pc and sp didn't change, then consider everything
stopped. -/
def goOn (before : σ) (st : UnwindState σ) : Outcome σ :=
  if u.world.pc before = u.world.pc st.regs ∧ u.world.sp before = u.world.sp st.regs then .stop st
  else .next st

/-- The body of the loop. -/
def unwindBody (st : UnwindState σ) : Outcome σ :=
  let mapInfo := mapsFind u.maps (u.world.pc st.regs)
  if mapInfo.any fun m => shouldStop u.mapSuffixesToIgnore m.name then .stop st
  else
    let relPc := mapInfo.elim (u.world.pc st.regs) (u.world.relPc st.regs)
    let added := addFrame u st mapInfo relPc
    match tryStep u st.regs mapInfo relPc with
    | .finished regs => .stop { added with regs := regs }
    | .stepped regs =>
      goOn u st.regs { added with regs := regs, returnAddressAttempt := false }
    | .failed inDeviceMap regs =>
      if st.returnAddressAttempt then
        -- Remove the speculative frame.
        if added.frames = [] then .popOnEmpty
        else .stop { added with regs := regs, frames := added.frames.dropLast }
      else if inDeviceMap then .stop { added with regs := regs }
      else
        -- Steping didn't work, try this secondary method.
        match u.world.setPcFromReturnAddress regs with
        | (false, regs) => .stop { added with regs := regs }
        | (true, regs) =>
          goOn u st.regs { added with regs := regs, returnAddressAttempt := true }

/-- The loop, with at most `fuel` iterations: the frames, or `none` inside for a
`pop_back` on an empty list. -/
def unwindLoop : Nat → UnwindState σ → Option (Option (List FrameData))
  | 0, _ => none
  | fuel + 1, st =>
    if st.frames.length < u.maxFrames then
      match unwindBody u st with
      | .next st => unwindLoop fuel st
      | .stop st => some (some st.frames)
      | .popOnEmpty => some none
    else some (some st.frames)

/-- The state the loop starts in. -/
def unwindStart (regs : σ) : UnwindState σ where
  regs := regs
  frames := []
  initialMapNamesToSkip := u.initialMapNamesToSkip
  returnAddressAttempt := false
  adjustPc := false

/-- `Unwinder::Unwind`. -/
def unwind (fuel : Nat) (regs : σ) : Option (Option (List FrameData)) :=
  unwindLoop u fuel (unwindStart u regs)

end

end AndroidCore.Libunwindstack
