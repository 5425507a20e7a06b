import AndroidCore.Proofs.Logd.Frame

/-!
# `AndroidCore.Proofs.Logd.TimeOrder`: the stored elements by time

`log(LogBufferElement*)` walks back from the end of the list to the place of a new element.
Two kinds of elements do not get there, although they are recent: one that is older than the
only element of the list, which is not looked at, and one that is older than an element of the
first five seconds, for which `tv_sec - too_far_back` wraps (`Misplaced`). The list stays in
order as long as there is none of them (`insertions_sorted_iff`).
-/

namespace AndroidCore.Logd

open List LogTime

/-- `n` stands before `m`: it is not newer, and of two with the same time it came first. -/
def Node.Before (n m : Node) : Prop :=
  n.elem.mRealTime ≤ m.elem.mRealTime ∧ (m.elem.mRealTime ≤ n.elem.mRealTime → n.ref < m.ref)

namespace Store

variable {s : Store} {e : LogBufferElement}

/-- The list is in order of time, and of arrival. -/
def Sorted (s : Store) : Prop := s.mLogElements.Pairwise Node.Before

/-- The element is less than five seconds older than each one of the list. -/
def Recent (s : Store) (e : LogBufferElement) : Prop :=
  ∀ n ∈ s.mLogElements, n.elem.mRealTime.tvSec.toNat < e.mRealTime.tvSec.toNat + 5 ∨
    (n.elem.mRealTime.tvSec.toNat = e.mRealTime.tvSec.toNat + 5 ∧
      n.elem.mRealTime.tvNsec.toNat < e.mRealTime.tvNsec.toNat)

/-- The element is older than the last one of the list, and it is put behind it. -/
def Misplaced (s : Store) (e : LogBufferElement) : Prop :=
  ∃ n ∈ s.mLogElements.getLast?, e.mRealTime < n.elem.mRealTime ∧
    (s.mLogElements.length = 1 ∨
      n.elem.mRealTime.tvSec.toNat < 5 ∧ e.mLogId ≠ .kernel ∧ n.elem.mLogId ≠ .kernel)

/-- The walk stops between what is not newer than the element and what is newer. -/
theorem walkBack_spec {time : LogTime} (before : List Node) (it : Node) (behind : List Node)
    (hsorted : (before.reverse ++ it :: behind).Pairwise Node.Before)
    (hnewer : ∀ n ∈ it :: behind, time < n.elem.mRealTime) :
    (∀ n ∈ (walkBack none time before it behind).1, n.elem.mRealTime ≤ time) ∧
      ∀ n ∈ (walkBack none time before it behind).2, time < n.elem.mRealTime := by
  induction before generalizing it behind with
  | nil => exact ⟨nofun, hnewer⟩
  | cons prev before ih =>
    rw [reverse_cons, append_assoc] at hsorted
    rw [walkBack]
    by_cases hprev : time < prev.elem.mRealTime
    · rw [if_pos ⟨hprev, rfl⟩]
      exact ih prev (it :: behind) hsorted (forall_mem_cons.mpr ⟨hprev, hnewer⟩)
    · rw [if_neg fun h => hprev h.1]
      refine ⟨fun n hn => ?_, hnewer⟩
      rw [mem_reverse, mem_cons] at hn
      rcases hn with rfl | hn
      · exact hprev
      · have hbefore := (pairwise_append.mp hsorted).2.2 n (mem_reverse.mpr hn) prev mem_cons_self
        exact le_trans hbefore.1 hprev

/-- A new node, between what is not newer and what is newer. -/
theorem sorted_insert (hs : s.Sorted) (hfresh : ∀ n ∈ s.mLogElements, n.ref < s.nextRef)
    (hold : ∀ n ∈ (s.position e).1, n.elem.mRealTime ≤ e.mRealTime)
    (hnew : ∀ n ∈ (s.position e).2, e.mRealTime < n.elem.mRealTime) : (s.insert e).Sorted := by
  unfold Sorted at hs ⊢
  rw [← s.position_eq e, pairwise_append] at hs
  refine pairwise_append.mpr ⟨hs.1, pairwise_cons.mpr ⟨fun n hn => ?_, hs.2.1⟩, ?_⟩
  · exact ⟨le_of_lt (hnew n hn), fun hle => absurd (hnew n hn) hle⟩
  · intro n hn m hm
    rcases mem_cons.mp hm with rfl | hm
    · refine ⟨hold n hn, fun _ => hfresh n ?_⟩
      rw [← s.position_eq e]
      exact mem_append_left _ hn
    · exact hs.2.2 n hn m hm

/-- A node at the end that is older than the one before it. -/
theorem not_sorted_of_last {n : Node} (hn : n ∈ s.mLogElements)
    (hlt : e.mRealTime < n.elem.mRealTime) (hpos : s.position e = (s.mLogElements, [])) :
    ¬ (s.insert e).Sorted := by
  unfold Store.insert
  rw [hpos]
  intro h
  exact ((pairwise_append.mp h).2.2 n hn _ mem_cons_self).1 hlt

/-- One insertion. -/
theorem sorted_insert_iff (hs : s.Sorted) (hfresh : ∀ n ∈ s.mLogElements, n.ref < s.nextRef)
    (htimes : s.mTimes = []) (hrecent : s.Recent e) :
    (s.insert e).Sorted ↔ ¬ s.Misplaced e := by
  rcases hrev : s.mLogElements.reverse with _ | ⟨it, before⟩
  · -- the first element
    have hnil : s.mLogElements = [] := reverse_eq_nil_iff.mp hrev
    have hpos : s.position e = ([], []) := by simp [position, hnil]
    refine iff_of_true (sorted_insert hs hfresh ?_ ?_) ?_
    · simp [hpos]
    · simp [hpos]
    · rintro ⟨n, hn, -⟩
      simp [hnil] at hn
  have hlist : s.mLogElements = before.reverse ++ [it] := by
    rw [← reverse_reverse s.mLogElements, hrev, reverse_cons]
  have hit : it ∈ s.mLogElements := by simp [hlist]
  have hmis : s.Misplaced e ↔ e.mRealTime < it.elem.mRealTime ∧ (before = [] ∨
      it.elem.mRealTime.tvSec.toNat < 5 ∧ e.mLogId ≠ .kernel ∧ it.elem.mLogId ≠ .kernel) := by
    simp [Misplaced, hlist]
  rw [hmis]
  by_cases hlt : e.mRealTime < it.elem.mRealTime
  · -- `tv_sec - too_far_back` is more than `tv_sec` of the element only if it wraps
    have hfar : e.mRealTime.tvSec < it.elem.mRealTime.tvSec - tooFarBack ↔
        it.elem.mRealTime.tvSec.toNat < 5 := by
      have hsec := hrecent it hit
      rw [lt_iff] at hlt
      rw [UInt32.lt_iff_toNat_lt, UInt32.toNat_sub]
      show _ < (2 ^ 32 - 5 + _) % 2 ^ 32 ↔ _
      omega
    by_cases hend : before = [] ∨ it.elem.mRealTime.tvSec.toNat < 5 ∧ e.mLogId ≠ .kernel ∧
        it.elem.mLogId ≠ .kernel
    · refine iff_of_false (not_sorted_of_last hit hlt ?_) (not_not.mpr ⟨hlt, hend⟩)
      unfold position
      rw [hrev]
      rcases before with _ | ⟨prev, before⟩
      · rfl
      · obtain ⟨hwrap, hmain⟩ := hend.resolve_left (cons_ne_nil _ _)
        exact if_pos (.inr ⟨hfar.mpr hwrap, hmain⟩)
    · refine iff_of_true ?_ fun h => hend h.2
      rcases before with _ | ⟨prev, before⟩
      · exact absurd (.inl rfl) hend
      have hpos : s.position e = walkBack none e.mRealTime (prev :: before) it [] := by
        unfold position
        rw [hrev, htimes]
        simp only [hfar]
        rw [if_neg fun h => h.elim (· hlt) fun h => hend (.inr h)]
        rfl
      have hspec := walkBack_spec (prev :: before) it [] (hlist ▸ hs)
        (forall_mem_singleton.mpr hlt)
      rw [← hpos] at hspec
      exact sorted_insert hs hfresh hspec.1 hspec.2
  · -- nothing is newer, so the end is the place
    refine iff_of_true ?_ fun h => hlt h.1
    have hpos : s.position e = (s.mLogElements, []) := by
      unfold position
      rw [hrev]
      rcases before with _ | ⟨prev, before⟩
      · rfl
      · exact if_pos (.inl hlt)
    refine sorted_insert hs hfresh ?_ ?_
    · unfold Sorted at hs
      rw [hlist] at hs
      rw [hpos, hlist]
      refine forall_mem_append.mpr ⟨fun n hn => ?_, forall_mem_singleton.mpr hlt⟩
      exact le_trans ((pairwise_append.mp hs).2.2 n hn it mem_cons_self).1 hlt
    · simp [hpos]

/-- What holds of each insertion of a sequence, and of the list that it finds. -/
def Insertions (P : Store → LogBufferElement → Prop) : Store → List LogBufferElement → Prop
  | _, [] => True
  | s, e :: es => P s e ∧ Insertions P (s.insert e) es

/-- Recent elements, put into a list in order: the order is kept up to the first one that is
misplaced. -/
theorem insertions_iff_of_sorted (es : List LogBufferElement) (hs : s.Sorted) (hvalid : s.Valid)
    (htimes : s.mTimes = []) (hrecent : Insertions Recent s es) :
    Insertions (fun s e => (s.insert e).Sorted) s es ↔
      Insertions (fun s e => ¬ s.Misplaced e) s es := by
  induction es generalizing s with
  | nil => exact Iff.rfl
  | cons e es ih =>
    rw [Insertions, Insertions, ← sorted_insert_iff hs hvalid.fresh htimes hrecent.1]
    exact and_congr_right fun hs' => ih hs' (hvalid.insert e) htimes hrecent.2

/-- Recent elements, put into an empty list without readers: the list is in order behind every
insertion if and only if no element is misplaced. -/
theorem insertions_sorted_iff (enable : Bool) (maxSize : LogId → Nat) (prune : PruneList)
    (es : List LogBufferElement) (h : Insertions Recent (.new enable maxSize prune) es) :
    Insertions (fun s e => (s.insert e).Sorted) (.new enable maxSize prune) es ↔
      Insertions (fun s e => ¬ s.Misplaced e) (.new enable maxSize prune) es :=
  insertions_iff_of_sorted es .nil (valid_new ..) rfl h

/-- An element of the main log, at a time in seconds. -/
def elementAt (sec : UInt32) : LogBufferElement := .new .main ⟨sec, 1⟩ 0 0 0 [4, 0] 2

theorem insertions_sorted_threeElements :
    Insertions (fun s e => (s.insert e).Sorted) (.new false (fun _ => 0) noLists)
        [elementAt 20, elementAt 22, elementAt 21] ↔
      Insertions (fun s e => ¬ s.Misplaced e) (.new false (fun _ => 0) noLists)
        [elementAt 20, elementAt 22, elementAt 21] :=
  insertions_sorted_iff false (fun _ => 0) noLists _ <| by
    simp [Insertions, Recent, Store.insert, position, Store.new, elementAt, LogBufferElement.new]

/-- The second element is a second older than the first one, so it is recent, and it is put
behind it: the list is no longer in order. -/
theorem insertions_twoElements_not_sorted :
    Insertions Recent (.new false (fun _ => 0) noLists) [elementAt 21, elementAt 20] ∧
      ¬ Insertions (fun s e => (s.insert e).Sorted) (.new false (fun _ => 0) noLists)
        [elementAt 21, elementAt 20] := by
  constructor
  · simp [Insertions, Recent, Store.insert, position, Store.new, elementAt, LogBufferElement.new]
  · rintro ⟨-, hsorted, -⟩
    unfold Sorted at hsorted
    have hfirst := (pairwise_cons.mp hsorted).1 _ mem_cons_self
    exact absurd hfirst.1 (by decide)

end Store

end AndroidCore.Logd
