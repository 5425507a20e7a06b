import AndroidCore.Libunwindstack.Unwinder
import Mathlib.Logic.Relation
import Mathlib.Data.List.Infix

/-!
# `AndroidCore.Proofs.Libunwindstack.Unwinder`: when the loop behaves

An iteration that adds a frame makes progress: the list is one longer, or the loop
stops. An iteration in a map to skip adds nothing, and two things can go wrong there.
The steps can go round in circles, and then the loop does not end. And the frame
that a failed step removes was never added.

`unwindBody_cases` says what an iteration can do. `SkipEnds` is the condition on the
steps in the maps to skip, and `unwind_wellBehaved_iff` says that it is the exact
one: the loop ends, removes only frames of its own, and numbers its frames in order,
for every behaviour of the steps that meets it and for no other.
-/

namespace AndroidCore.Libunwindstack

open List

section
variable {σ : Type} (u : Unwinder σ)

/-! ### One iteration -/

/-- The iteration at `st` adds no frame and does not stop before it steps. -/
def Skipping (st : UnwindState σ) : Prop :=
  skipsFrame st (mapsFind u.maps (u.world.pc st.regs)) = true

/-- The frame the iteration at `st` adds. -/
def newFrame (st : UnwindState σ) : FrameData :=
  let mapInfo := mapsFind u.maps (u.world.pc st.regs)
  fillInFrame u st.regs st.frames mapInfo
    (mapInfo.elim (u.world.pc st.regs) (u.world.relPc st.regs)) st.adjustPc

theorem num_newFrame (st : UnwindState σ) : (newFrame u st).num = st.frames.length := by
  unfold newFrame fillInFrame
  simp only
  split <;> rfl

/-- The frames after the part of an iteration that adds a frame. -/
theorem addFrame_cases (st : UnwindState σ) :
    let mapInfo := mapsFind u.maps (u.world.pc st.regs)
    let added := addFrame u st mapInfo
      (mapInfo.elim (u.world.pc st.regs) (u.world.relPc st.regs))
    (Skipping u st ∧ added.frames = st.frames ∧
        added.initialMapNamesToSkip = st.initialMapNamesToSkip) ∨
      (¬ Skipping u st ∧ added.frames = st.frames ++ [newFrame u st] ∧
        added.initialMapNamesToSkip = none) := by
  intro mapInfo added
  unfold added addFrame
  by_cases hskip : skipsFrame st mapInfo = true
  · rw [if_pos hskip]
    exact .inl ⟨hskip, rfl, rfl⟩
  · rw [if_neg hskip]
    exact .inr ⟨hskip, rfl, rfl⟩

/-- How an iteration relates the state `st` at its head to the state after it. -/
inductive BodyCases (st : UnwindState σ) : Outcome σ → Prop where
  /-- The loop goes on without a new frame. -/
  | skip (st' : UnwindState σ) (hskip : Skipping u st) (hframes : st'.frames = st.frames)
      (hnames : st'.initialMapNamesToSkip = st.initialMapNamesToSkip) : BodyCases st (.next st')
  /-- The loop goes on with a new frame. -/
  | push (st' : UnwindState σ) (hskip : ¬ Skipping u st)
      (hframes : st'.frames = st.frames ++ [newFrame u st])
      (hnames : st'.initialMapNamesToSkip = none) : BodyCases st (.next st')
  /-- The loop stops, with the new frame or without it. -/
  | stop (st' : UnwindState σ)
      (hframes : st'.frames = st.frames ∨ st'.frames = st.frames ++ [newFrame u st]) :
      BodyCases st (.stop st')
  /-- A frame is removed that was not added. -/
  | pop (hskip : Skipping u st) (hframes : st.frames = []) : BodyCases st .popOnEmpty

/-- What holds at the head of every iteration: frames are skipped only as long as
there are none, and the frames are numbered in order. -/
structure StateOk (st : UnwindState σ) : Prop where
  skip_nil : st.initialMapNamesToSkip ≠ none → st.frames = []
  numbered : st.frames.map FrameData.num = List.range st.frames.length

variable {st st' : UnwindState σ}

section
variable (h : StateOk st)
include h

theorem StateOk.nil_of_skipping {u : Unwinder σ} (hskip : Skipping u st) : st.frames = [] := by
  refine h.skip_nil fun hnone => ?_
  unfold Skipping skipsFrame at hskip
  split at hskip <;> simp_all

theorem unwindBody_cases : BodyCases u st (unwindBody u st) := by
  have hadd := addFrame_cases u st
  unfold unwindBody
  simp only at hadd ⊢
  generalize addFrame u st _ _ = added at hadd ⊢
  have hstop : ∀ st' : UnwindState σ, st'.frames = added.frames → BodyCases u st (.stop st') := by
    intro st' hframes
    refine .stop st' ?_
    rcases hadd with ⟨_, hsame, _⟩ | ⟨_, hpush, _⟩
    · exact .inl (hframes.trans hsame)
    · exact .inr (hframes.trans hpush)
  have hgo : ∀ st' : UnwindState σ, st'.frames = added.frames →
      st'.initialMapNamesToSkip = added.initialMapNamesToSkip →
      BodyCases u st (goOn u st.regs st') := by
    intro st' hframes hnames
    unfold goOn
    split
    · exact hstop st' hframes
    · rcases hadd with ⟨hskip, hsame, hkeep⟩ | ⟨hskip, hpush, hnone⟩
      · exact .skip st' hskip (hframes.trans hsame) (hnames.trans hkeep)
      · exact .push st' hskip (hframes.trans hpush) (hnames.trans hnone)
  split
  · exact .stop st (.inl rfl)
  split
  · exact hstop _ rfl
  · exact hgo _ rfl rfl
  split
  · -- The frame that is removed is the one this iteration added, if it added one.
    rcases hadd with ⟨hskip, hsame, _⟩ | ⟨_, hpush, _⟩
    · have hnil := h.nil_of_skipping hskip
      rw [if_pos (hsame.trans hnil)]
      exact .pop hskip hnil
    · rw [if_neg (by rw [hpush]; simp)]
      refine .stop _ (.inl ?_)
      rw [hpush, dropLast_concat]
  · split
    · exact hstop _ rfl
    · split
      · exact hstop _ rfl
      · exact hgo _ rfl rfl

/-- The frames with the new one are numbered in order. -/
theorem StateOk.numbered_push :
    (st.frames ++ [newFrame u st]).map FrameData.num
      = List.range (st.frames ++ [newFrame u st]).length := by
  rw [map_append, map_singleton, num_newFrame, h.numbered, length_append,
    length_singleton, range_succ]

theorem StateOk.next (hbody : unwindBody u st = .next st') : StateOk st' := by
  have hcases := unwindBody_cases u h
  rw [hbody] at hcases
  cases hcases with
  | skip st' hskip hframes hnames =>
    exact { skip_nil := fun _ => hframes.trans (h.nil_of_skipping hskip)
            numbered := by rw [hframes]; exact h.numbered }
  | push st' hskip hframes hnames =>
    exact { skip_nil := fun hne => absurd hnames hne
            numbered := by rw [hframes]; exact h.numbered_push u }

/-- No iteration removes a frame that was there at its head. -/
theorem StateOk.keeps (hbody : unwindBody u st = .next st' ∨ unwindBody u st = .stop st') :
    st.frames <+: st'.frames := by
  have hcases := unwindBody_cases u h
  rcases hbody with hbody | hbody
  · rw [hbody] at hcases
    cases hcases with
    | skip st' _ hframes _ => rw [hframes]
    | push st' _ hframes _ => rw [hframes]; exact prefix_append _ _
  · rw [hbody] at hcases
    cases hcases with
    | stop st' hframes =>
      rcases hframes with hframes | hframes
      · rw [hframes]
      · rw [hframes]; exact prefix_append _ _

end

/-! ### The steps in the maps to skip -/

/-- From `st` on, the iterations in maps to skip come to an end, and none of them
removes a frame: the loop leaves the maps to skip, or it stops there. -/
inductive SkipEnds : UnwindState σ → Prop where
  | out (st : UnwindState σ) (h : ¬ (st.frames.length < u.maxFrames ∧ Skipping u st)) :
      SkipEnds st
  | stop (st st' : UnwindState σ) (h : unwindBody u st = .stop st') : SkipEnds st
  | step (st st' : UnwindState σ) (h : unwindBody u st = .next st') (hst : SkipEnds st') :
      SkipEnds st

/-- A loop that has returned frames has left the maps to skip. -/
theorem skipEnds_of_unwindLoop (fuel : Nat) {st : UnwindState σ} {fs : List FrameData}
    (hok : StateOk st) (hrun : unwindLoop u fuel st = some (some fs)) : SkipEnds u st := by
  induction fuel generalizing st with
  | zero => simp [unwindLoop] at hrun
  | succ fuel ih =>
    by_cases hskip : st.frames.length < u.maxFrames ∧ Skipping u st
    · rw [unwindLoop, if_pos hskip.1] at hrun
      cases hbody : unwindBody u st with
      | next st' =>
        rw [hbody] at hrun
        exact .step st st' hbody (ih (hok.next u hbody) hrun)
      | stop st' => exact .stop st st' hbody
      | popOnEmpty =>
        rw [hbody] at hrun
        cases hrun
    · exact .out st hskip

/-! ### The loop -/

/-- What the loop returns from a state: the frames are numbered in order, and there
are at most `max_frames` of them. -/
def Returns (st : UnwindState σ) (n : Nat) : Prop :=
  ∃ fs : List FrameData, (∀ fuel ≥ n, unwindLoop u fuel st = some (some fs)) ∧
    fs.map FrameData.num = List.range fs.length ∧ fs.length ≤ u.maxFrames

theorem returns_full (hok : StateOk st) (hle : st.frames.length ≤ u.maxFrames)
    (hfull : ¬ st.frames.length < u.maxFrames) : Returns u st 1 := by
  refine ⟨st.frames, fun fuel hfuel => ?_, hok.numbered, hle⟩
  obtain ⟨fuel, rfl⟩ := Nat.exists_eq_add_of_le' hfuel
  rw [unwindLoop, if_neg hfull]

theorem returns_stop (hok : StateOk st) (hroom : st.frames.length < u.maxFrames)
    (hbody : unwindBody u st = .stop st') : Returns u st 1 := by
  refine ⟨st'.frames, fun fuel hfuel => ?_, ?_⟩
  · obtain ⟨fuel, rfl⟩ := Nat.exists_eq_add_of_le' hfuel
    rw [unwindLoop, if_pos hroom, hbody]
  · have hcases := unwindBody_cases u hok
    rw [hbody] at hcases
    cases hcases with
    | stop st' hframes =>
      rcases hframes with hframes | hframes
      · rw [hframes]
        exact ⟨hok.numbered, by omega⟩
      · rw [hframes]
        refine ⟨hok.numbered_push u, ?_⟩
        rw [length_append, length_singleton]
        omega

theorem returns_next {n : Nat} (hroom : st.frames.length < u.maxFrames)
    (hbody : unwindBody u st = .next st') (h : Returns u st' n) : Returns u st (n + 1) := by
  obtain ⟨fs, hrun, hnum, hlen⟩ := h
  refine ⟨fs, fun fuel hfuel => ?_, hnum, hlen⟩
  obtain ⟨fuel, rfl⟩ : ∃ k, fuel = k + 1 := ⟨fuel - 1, by omega⟩
  rw [unwindLoop, if_pos hroom, hbody]
  exact hrun fuel (by omega)

/-- An iteration outside of the maps to skip adds a frame or stops. -/
theorem returns_of_not_skipping (hok : StateOk st) (hroom : st.frames.length < u.maxFrames)
    (hnot : ¬ Skipping u st)
    (h : ∀ {st' : UnwindState σ}, StateOk st' → st'.initialMapNamesToSkip = none →
      st'.frames.length = st.frames.length + 1 → ∃ n, Returns u st' n) : ∃ n, Returns u st n := by
  have hcases := unwindBody_cases u hok
  cases hbody : unwindBody u st with
  | next st' =>
    rw [hbody] at hcases
    cases hcases with
    | skip st' hskip _ _ => exact absurd hskip hnot
    | push st' _ hframes hnames =>
      obtain ⟨n, hn⟩ := h (hok.next u hbody) hnames (by simp [hframes])
      exact ⟨n + 1, returns_next u hroom hbody hn⟩
  | stop st' => exact ⟨1, returns_stop u hok hroom hbody⟩
  | popOnEmpty =>
    rw [hbody] at hcases
    cases hcases with
    | pop hskip _ => exact absurd hskip hnot

/-- Once no map is to be skipped any more, every iteration adds a frame, and the loop
returns after as many iterations as frames are missing. -/
theorem returns_of_no_skip (k : Nat) {st : UnwindState σ} (hok : StateOk st)
    (hnone : st.initialMapNamesToSkip = none) (hle : st.frames.length ≤ u.maxFrames)
    (hk : u.maxFrames - st.frames.length = k) : ∃ n, Returns u st n := by
  induction k generalizing st with
  | zero =>
    exact ⟨1, returns_full u hok hle (by omega)⟩
  | succ k ih =>
    have hroom : st.frames.length < u.maxFrames := by omega
    have hnot : ¬ Skipping u st := by
      unfold Skipping skipsFrame
      split <;> simp_all
    exact returns_of_not_skipping u hok hroom hnot fun hok' hnames hlen =>
      ih hok' hnames (by omega) (by omega)

/-- The loop returns when the iterations in maps to skip come to an end. -/
theorem SkipEnds.returns (h : SkipEnds u st) (hok : StateOk st)
    (hle : st.frames.length ≤ u.maxFrames) : ∃ n, Returns u st n := by
  induction h with
  | out st hout =>
    by_cases hroom : st.frames.length < u.maxFrames
    · exact returns_of_not_skipping u hok hroom (fun hskip => hout ⟨hroom, hskip⟩)
        fun hok' hnames hlen => returns_of_no_skip u _ hok' hnames (by omega) rfl
    · exact ⟨1, returns_full u hok hle hroom⟩
  | stop st st' hbody =>
    by_cases hroom : st.frames.length < u.maxFrames
    · exact ⟨1, returns_stop u hok hroom hbody⟩
    · exact ⟨1, returns_full u hok hle hroom⟩
  | step st st' hbody _ ih =>
    by_cases hroom : st.frames.length < u.maxFrames
    · have hcases := unwindBody_cases u hok
      rw [hbody] at hcases
      have hle' : st'.frames.length ≤ u.maxFrames := by
        cases hcases with
        | skip st' _ hframes _ => rw [hframes]; exact hle
        | push st' _ hframes _ =>
          rw [hframes, length_append, length_singleton]
          omega
      obtain ⟨n, hn⟩ := ih (hok.next u hbody) hle'
      exact ⟨n + 1, returns_next u hroom hbody hn⟩
    · exact ⟨1, returns_full u hok hle hroom⟩

/-! ### Main result -/

theorem stateOk_start (regs : σ) : StateOk (unwindStart u regs) where
  skip_nil := fun _ => rfl
  numbered := rfl

/-- One iteration leads from `st` to `st'`. -/
def Iterates (st st' : UnwindState σ) : Prop :=
  st.frames.length < u.maxFrames ∧ unwindBody u st = .next st'

/-- The loop is well behaved: it returns after finitely many iterations, with at most
`max_frames` frames, numbered from 0 on; and in every iteration, the frames at its
head are still there at its end, so that the only frame that is removed is the one
the iteration added. -/
structure WellBehaved (regs : σ) : Prop where
  returns : ∃ n, ∃ fs : List FrameData, (∀ fuel ≥ n, unwind u fuel regs = some (some fs)) ∧
    fs.map FrameData.num = List.range fs.length ∧ fs.length ≤ u.maxFrames
  keeps : ∀ st, Relation.ReflTransGen (Iterates u) (unwindStart u regs) st →
    st.frames.length < u.maxFrames →
      ∃ st', (unwindBody u st = .next st' ∨ unwindBody u st = .stop st') ∧
        st.frames <+: st'.frames

theorem stateOk_of_reaches {regs : σ}
    (h : Relation.ReflTransGen (Iterates u) (unwindStart u regs) st) : StateOk st := by
  induction h with
  | refl => exact stateOk_start u regs
  | tail _ hstep ih => exact ih.next u hstep.2

/-- A loop that returns from a state returns from every state it comes to. -/
theorem returns_of_reaches (h : Relation.ReflTransGen (Iterates u) st st') {n : Nat}
    {fs : List FrameData} (hrun : ∀ fuel ≥ n, unwindLoop u fuel st = some (some fs)) :
    ∀ fuel ≥ n, unwindLoop u fuel st' = some (some fs) := by
  induction h with
  | refl => exact hrun
  | tail _ hstep ih =>
    intro fuel hfuel
    have hone := ih (fuel + 1) (by omega)
    rwa [unwindLoop, if_pos hstep.1, hstep.2] at hone

/-- The loop of `Unwind` and the maps to skip. For every list of maps, every pair of
lists of names, every `max_frames` and every behaviour of the steps, the loop is well
behaved exactly when the iterations in maps to skip come to an end and remove no
frame. -/
theorem unwind_wellBehaved_iff (regs : σ) :
    WellBehaved u regs ↔ SkipEnds u (unwindStart u regs) := by
  constructor
  · rintro ⟨⟨n, fs, hrun, _⟩, _⟩
    exact skipEnds_of_unwindLoop u n (stateOk_start u regs) (hrun n (Nat.le_refl n))
  · intro hskip
    obtain ⟨n, fs, hrun, hnum, hlen⟩ := hskip.returns u (stateOk_start u regs) (Nat.zero_le _)
    refine ⟨⟨n, fs, hrun, hnum, hlen⟩, fun st hreach hroom => ?_⟩
    have hok := stateOk_of_reaches u hreach
    have hlast := returns_of_reaches u hreach hrun (n + 1) (by omega)
    rw [unwindLoop, if_pos hroom] at hlast
    cases hbody : unwindBody u st with
    | next st' => exact ⟨st', .inl rfl, hok.keeps u (.inl hbody)⟩
    | stop st' => exact ⟨st', .inr rfl, hok.keeps u (.inr hbody)⟩
    | popOnEmpty =>
      rw [hbody] at hlast
      cases hlast

end

/-! ### Steps that go wrong -/

/-- One library in the memory from `0x1000` to `0x2000`. -/
def libMap : MapInfo where
  start := 0x1000
  stop := 0x2000
  offset := 0
  flags := 5
  name := ['/', 'l', 'i', 'b', '/', 'l', 'i', 'b', 'c', '.', 's', 'o']
  elfOffset := 0

/-- An unwinder with one library, which is to be skipped. The state is the pc. -/
def skippingUnwinder (step : UInt64 → Bool × Bool × UInt64)
    (setPc : UInt64 → Bool × UInt64) : Unwinder UInt64 where
  world :=
    { pc := id, sp := fun _ => 0x8000, relPc := fun pc m => pc - m.start
      adjustedPc := fun _ relPc _ => relPc - 4, loadBias := fun _ => 0
      functionName := fun _ _ => none, step := fun pc _ _ => step pc
      setPcFromReturnAddress := setPc }
  maps := #[libMap]
  maxFrames := 64
  initialMapNamesToSkip := some [['l', 'i', 'b', 'c', '.', 's', 'o']]
  mapSuffixesToIgnore := none

/-- The steps go back and forth between two pcs. -/
def circling : Unwinder UInt64 :=
  skippingUnwinder (fun pc => (true, false, if pc = 0x1000 then 0x1004 else 0x1000))
    (fun pc => (false, pc))

/-- No step works, and the return address is in the same library. -/
def speculating : Unwinder UInt64 :=
  skippingUnwinder (fun pc => (false, false, pc)) (fun _ => (true, 0x1004))

/-- The states of the loop that goes in circles. -/
def circlingState (pc : UInt64) (adjustPc : Bool) : UnwindState UInt64 where
  regs := pc
  frames := []
  initialMapNamesToSkip := circling.initialMapNamesToSkip
  returnAddressAttempt := false
  adjustPc := adjustPc

theorem circling_body (b : Bool) {pc : UInt64} (hpc : pc = 0x1000 ∨ pc = 0x1004) :
    unwindBody circling (circlingState pc b)
      = .next (circlingState (if pc = 0x1000 then 0x1004 else 0x1000) true) := by
  rcases hpc with rfl | rfl <;> cases b <;> rfl

theorem circling_loop (fuel : Nat) (b : Bool) {pc : UInt64} (hpc : pc = 0x1000 ∨ pc = 0x1004) :
    unwindLoop circling fuel (circlingState pc b) = none := by
  induction fuel generalizing b pc with
  | zero => rfl
  | succ fuel ih =>
    rw [unwindLoop, circling_body b hpc]
    refine ih true ?_
    split
    · exact .inr rfl
    · exact .inl rfl

/-- In a map to skip, steps that go in circles keep the loop from ending, and a second
failed step removes a frame from an empty list. -/
theorem skipped_map_misbehaves :
    (∀ fuel, unwind circling fuel 0x1000 = none) ∧
      ∀ fuel, unwind speculating (fuel + 2) 0x1000 = some none :=
  ⟨fun fuel => circling_loop fuel false (.inl rfl), fun _ => rfl⟩

end AndroidCore.Libunwindstack
