import AndroidCore.Lib.CountP
import AndroidCore.Logd.LogElements
import AndroidCore.Proofs.Logd.LogStatistics

/-!
# `AndroidCore.Proofs.Logd.LogElements`: iterators stay valid

`Store.Valid` says that every remembered iterator stands on a node of the list, and the
ones of the offenders on a node of their own log and key. `erase` looks an iterator up by
the log and the key of the node it erases, so this is what keeps it from leaving one
behind.

The operations are described at a place in the list, as `pre ++ n :: rest`.
-/

namespace AndroidCore.Logd

open Lib List LogBufferElement

/-! ### A node in the list -/

section Nodes

variable {pre rest : List Node} {n m : Node}

section

variable (h : ((pre ++ n :: rest).map Node.ref).Nodup)
include h

/-- No other node has the iterator of `n`. -/
theorem ref_ne_of_nodup : ∀ m ∈ pre ++ rest, m.ref ≠ n.ref := by
  intro m hm heq
  have hperm : ((pre ++ n :: rest).map Node.ref).Perm ((n :: (pre ++ rest)).map Node.ref) :=
    perm_middle.map _
  have hnodup := hperm.nodup_iff.1 h
  rw [map_cons, nodup_cons] at hnodup
  exact hnodup.1 (heq ▸ mem_map_of_mem hm)

theorem nodup_of_middle : ((pre ++ rest).map Node.ref).Nodup :=
  h.sublist (((List.Sublist.refl pre).append (sublist_cons_self n rest)).map Node.ref)

theorem eraseP_ref : ((pre ++ n :: rest).eraseP fun m => m.ref = n.ref) = pre ++ rest := by
  have hpre : ∀ m ∈ pre, ¬ (decide (m.ref = n.ref) = true) := fun m hm => by
    simpa using ref_ne_of_nodup h m (mem_append_left _ hm)
  rw [eraseP_append_right _ hpre, eraseP_cons_of_pos (by simp)]

theorem refAfter_middle : refAfter n.ref (pre ++ n :: rest) = rest.head?.map Node.ref := by
  have hpre : ∀ m ∈ pre, m.ref ≠ n.ref := fun m hm =>
    ref_ne_of_nodup h m (mem_append_left _ hm)
  clear h
  induction pre with
  | nil => simp [refAfter]
  | cons m pre ih =>
    rw [cons_append, refAfter, if_neg (hpre m (mem_cons_self ..))]
    exact ih fun m' hm' => hpre m' (mem_cons_of_mem _ hm')

theorem find_ref : ((pre ++ n :: rest).find? fun m => m.ref = n.ref) = some n :=
  find?_of_nodup_map h (mem_append_right pre mem_cons_self) rfl

theorem map_setDropped (v : UInt16) :
    ((pre ++ n :: rest).map fun m => if m.ref = n.ref then m.setDropped v else m) =
      pre ++ n.setDropped v :: rest := by
  have hother : ∀ ms : List Node, (∀ m ∈ ms, m.ref ≠ n.ref) →
      (ms.map fun m => if m.ref = n.ref then m.setDropped v else m) = ms := by
    intro ms hms
    conv_rhs => rw [← map_id ms]
    exact map_congr_left fun m hm => if_neg (hms m hm)
  have hne := ref_ne_of_nodup h
  rw [map_append, map_cons, if_pos rfl, hother pre fun m hm => hne m (mem_append_left _ hm),
    hother rest fun m hm => hne m (mem_append_right _ hm)]

end

end Nodes

/-! ### Iterator maps -/

/-- Each iterator of the map stands on a node of its log and key. -/
def Points (map : LogId → UInt32 → Option Nat) (key : LogBufferElement → UInt32)
    (nodes : List Node) : Prop :=
  ∀ i k ref, map i k = some ref → ∃ n ∈ nodes, n.ref = ref ∧ n.elem.mLogId = i ∧ key n.elem = k

namespace Points

variable {map : LogId → UInt32 → Option Nat} {key : LogBufferElement → UInt32}
  {nodes pre rest : List Node} {n : Node}

/-- More nodes do no harm. -/
theorem mono (h : Points map key nodes) {nodes' : List Node} (hsub : ∀ m ∈ nodes, m ∈ nodes') :
    Points map key nodes' := by
  intro i k ref hmap
  obtain ⟨m, hm, hrest⟩ := h i k ref hmap
  exact ⟨m, hsub m hm, hrest⟩

/-- A node goes, and its iterator with it. -/
theorem erase (h : Points map key (pre ++ n :: rest)) :
    Points (update map n.elem.mLogId fun map => forget map (key n.elem) n.ref) key
      (pre ++ rest) := by
  intro i k ref hmap
  have hold : map i k = some ref ∧
      ¬ (i = n.elem.mLogId ∧ k = key n.elem ∧ ref = n.ref) := by
    by_cases hi : i = n.elem.mLogId
    · simp only [update, hi, ↓reduceIte, forget] at hmap
      split at hmap
      case isTrue => cases hmap
      case isFalse hne =>
        rw [hi]
        exact ⟨hmap, fun hall => hne ⟨hall.2.1, hall.2.2 ▸ hmap⟩⟩
    · simp only [update, hi] at hmap
      exact ⟨hmap, fun hall => hi hall.1⟩
  obtain ⟨m, hm, href, hlog, hkey⟩ := h i k ref hold.1
  refine ⟨m, ?_, href, hlog, hkey⟩
  have hne : m ≠ n := by
    rintro rfl
    exact hold.2 ⟨hlog.symm, hkey.symm, href.symm⟩
  simpa [hne] using hm

/-- An iterator is set to a node of its log and key. -/
theorem set (h : Points map key nodes) (hn : n ∈ nodes) :
    Points (update map n.elem.mLogId fun map k => if k = key n.elem then some n.ref else map k)
      key nodes := by
  intro i k ref hmap
  by_cases hi : i = n.elem.mLogId
  · simp only [update, hi, ↓reduceIte] at hmap
    by_cases hk : k = key n.elem
    · simp only [hk, ↓reduceIte, Option.some.injEq] at hmap
      exact ⟨n, hn, hmap, hi.symm, hk.symm⟩
    · simp only [hk] at hmap
      exact h i k ref (hi ▸ hmap)
  · simp only [update, hi] at hmap
    exact h i k ref hmap

/-- A node becomes chatty, which changes no key. -/
theorem setDropped (hkey : ∀ e v, key (setDropped e v) = key e) {v : UInt16}
    (h : Points map key (pre ++ n :: rest)) : Points map key (pre ++ n.setDropped v :: rest) := by
  intro i k ref hmap
  obtain ⟨m, hm, href, hlog, hk⟩ := h i k ref hmap
  by_cases hmn : m = n
  · subst hmn
    exact ⟨m.setDropped v, by simp, href, hlog, (hkey _ _).trans hk⟩
  · refine ⟨m, ?_, href, hlog, hk⟩
    have hmem : m ∈ pre ∨ m ∈ rest := by simpa [hmn] using hm
    rcases hmem with hmem | hmem <;> simp [hmem]

end Points

/-! ### Valid stores -/

@[simp] theorem LogBufferElement.setDropped_key (e : LogBufferElement) (v : UInt16) :
    (e.setDropped v).key = e.key := by
  simp [key]

namespace Store

/-- Nodes have different iterators, and the remembered ones stand on nodes. -/
structure Valid (s : Store) : Prop where
  nodup : (s.mLogElements.map Node.ref).Nodup
  fresh : ∀ n ∈ s.mLogElements, n.ref < s.nextRef
  last : ∀ i ref, s.mLast i = some ref → ∃ n ∈ s.mLogElements, n.ref = ref
  worst : Points s.mLastWorst key s.mLogElements
  worstPid : Points s.mLastWorstPidOfSystem mPid s.mLogElements

/-- The elements of the list. -/
def elems (s : Store) : List LogBufferElement := s.mLogElements.map Node.elem

theorem valid_new (enable : Bool) (maxSize : LogId → Nat) (prune : PruneList) :
    (new enable maxSize prune).Valid where
  nodup := nodup_nil
  fresh := fun _ h => absurd h not_mem_nil
  last := by intro i ref h; cases h
  worst := by intro i k ref h; cases h
  worstPid := by intro i k ref h; cases h

variable {s : Store} {pre rest : List Node} {n : Node}

/-! ### What the operations do to the list -/

theorem markLast_mLogElements (id : LogId) (it : Node) :
    (s.markLast id it).mLogElements = s.mLogElements := by
  simp [markLast, apply_ite mLogElements]

theorem markLast_stats (id : LogId) (it : Node) : (s.markLast id it).stats = s.stats := by
  simp [markLast, apply_ite stats]

section

variable (h : s.Valid)
include h

theorem Valid.erase_mLogElements (hs : s.mLogElements = pre ++ n :: rest) (coalesce : Bool) :
    (s.erase n coalesce).mLogElements = pre ++ rest := by
  show s.mLogElements.eraseP _ = _
  rw [hs]
  exact eraseP_ref (hs ▸ h.nodup)

theorem Valid.setDropped_mLogElements (hs : s.mLogElements = pre ++ n :: rest) (v : UInt16) :
    (s.setDropped n.ref v).mLogElements = pre ++ n.setDropped v :: rest := by
  show s.mLogElements.map _ = _
  rw [hs]
  exact map_setDropped (hs ▸ h.nodup) v

section

variable (hn : n ∈ s.mLogElements)
include hn

theorem Valid.elemAt_eq : s.elemAt n.ref = some n.elem := by
  obtain ⟨pre, rest, hs⟩ := append_of_mem hn
  rw [elemAt, hs, find_ref (hs ▸ h.nodup)]
  rfl

/-! ### The operations keep a store valid -/

omit hn in
/-- The other fields do not matter. -/
theorem Valid.congr {s' : Store} (hnodes : s'.mLogElements = s.mLogElements)
    (href : s'.nextRef = s.nextRef) (hlast : s'.mLast = s.mLast)
    (hworst : s'.mLastWorst = s.mLastWorst)
    (hpid : s'.mLastWorstPidOfSystem = s.mLastWorstPidOfSystem) : s'.Valid where
  nodup := hnodes ▸ h.nodup
  fresh := by rw [hnodes, href]; exact h.fresh
  last := by rw [hnodes, hlast]; exact h.last
  worst := by rw [hnodes, hworst]; exact h.worst
  worstPid := by rw [hnodes, hpid]; exact h.worstPid

theorem Valid.markLast (id : LogId) : (s.markLast id n).Valid := by
  rw [Store.markLast]
  split
  · exact h
  · refine { h with last := ?_ }
    intro i ref hlast
    by_cases hi : i = id
    · simp only [update, hi, ↓reduceIte, Option.some.injEq] at hlast
      exact ⟨n, hn, hlast⟩
    · simp only [update, hi] at hlast
      exact h.last i ref hlast

theorem Valid.setLastWorst {id : LogId} {key : UInt32} (hid : n.elem.mLogId = id)
    (hkey : n.elem.key = key) : (s.setLastWorst id key n).Valid := by
  subst hid hkey
  exact { h with worst := h.worst.set hn }

theorem Valid.setLastWorstPid {id : LogId} {pid : UInt32} (hid : n.elem.mLogId = id)
    (hpid : n.elem.mPid = pid) : (s.setLastWorstPid id pid n).Valid := by
  subst hid hpid
  exact { h with worstPid := h.worstPid.set hn }

end

theorem Valid.setDropped (hs : s.mLogElements = pre ++ n :: rest) (v : UInt16) :
    (s.setDropped n.ref v).Valid := by
  have hnodes := h.setDropped_mLogElements hs v
  have hrefs : (pre ++ n.setDropped v :: rest).map Node.ref = s.mLogElements.map Node.ref := by
    rw [hs]
    simp [Node.setDropped]
  have hmem : ∀ ref, (∃ m ∈ pre ++ n.setDropped v :: rest, m.ref = ref) ↔
      ∃ m ∈ s.mLogElements, m.ref = ref := by
    intro ref
    rw [← mem_map, ← mem_map, hrefs]
  refine ⟨?_, ?_, ?_, ?_, ?_⟩
  · rw [hnodes, hrefs]
    exact h.nodup
  · intro m hm
    rw [hnodes] at hm
    obtain ⟨m', hm', href⟩ := (hmem m.ref).1 ⟨m, hm, rfl⟩
    rw [← href]
    exact h.fresh m' hm'
  · intro i ref hlast
    rw [hnodes, hmem]
    exact h.last i ref hlast
  · rw [hnodes]
    exact Points.setDropped setDropped_key (hs ▸ h.worst)
  · rw [hnodes]
    exact Points.setDropped setDropped_mPid (hs ▸ h.worstPid)

theorem Valid.erase (hs : s.mLogElements = pre ++ n :: rest) (coalesce : Bool) :
    (s.erase n coalesce).Valid := by
  have hnodes := h.erase_mLogElements hs coalesce
  have hsub : ∀ m ∈ pre ++ rest, m ∈ s.mLogElements := by
    intro m hm
    rw [hs]
    exact mem_append.2 ((mem_append.1 hm).imp_right (mem_cons_of_mem n))
  refine ⟨?_, ?_, ?_, ?_, ?_⟩
  · rw [hnodes]
    exact nodup_of_middle (hs ▸ h.nodup)
  · rw [hnodes]
    exact fun m hm => h.fresh m (hsub m hm)
  · intro i ref hlast
    rw [hnodes]
    have hafter := refAfter_middle (hs ▸ h.nodup)
    simp only [Store.erase] at hlast
    split at hlast
    case isTrue =>
      -- the iterator moves on to the next node
      rw [hs, hafter] at hlast
      obtain ⟨m, hm, href⟩ := Option.map_eq_some_iff.1 hlast
      exact ⟨m, mem_append_right _ (mem_of_mem_head? hm), href⟩
    case isFalse hne =>
      obtain ⟨m, hm, href⟩ := h.last i ref hlast
      have hmn : m ≠ n := by
        rintro rfl
        exact hne (href ▸ hlast)
      rw [hs] at hm
      exact ⟨m, by simpa [hmn] using hm, href⟩
  · rw [hnodes]
    exact Points.erase (hs ▸ h.worst)
  · rw [hnodes]
    exact Points.erase (hs ▸ h.worstPid)

end

/-! ### `log(LogBufferElement*)` -/

theorem walkBack_eq (stop : Option LogTime) (time : LogTime) (before : List Node) (it : Node)
    (behind : List Node) :
    (walkBack stop time before it behind).1 ++ (walkBack stop time before it behind).2 =
      before.reverse ++ it :: behind := by
  induction before generalizing it behind with
  | nil => rfl
  | cons prev before ih =>
    rw [walkBack]
    split
    · rw [ih]
      simp
    · rfl

/-- The new element is put somewhere into the list. -/
theorem position_eq (s : Store) (e : LogBufferElement) :
    (s.position e).1 ++ (s.position e).2 = s.mLogElements := by
  rw [position]
  split
  case h_1 it prev before hrev =>
    have hlist : s.mLogElements = (it :: prev :: before).reverse := by
      rw [← hrev, reverse_reverse]
    simp only
    split
    · simp
    · split
      · simp
      · rw [walkBack_eq, hlist]
        simp
  case h_2 => simp

theorem Valid.insert (h : s.Valid) (e : LogBufferElement) : (s.insert e).Valid := by
  have hpos := s.position_eq e
  have hnew : ∀ m ∈ s.mLogElements, m.ref ≠ s.nextRef := fun m hm => (h.fresh m hm).ne
  have hsub : ∀ m ∈ s.mLogElements, m ∈ (s.insert e).mLogElements := by
    intro m hm
    rw [← hpos] at hm
    exact mem_append.2 ((mem_append.1 hm).imp_right (mem_cons_of_mem _))
  refine ⟨?_, ?_, ?_, h.worst.mono hsub, h.worstPid.mono hsub⟩
  · have hperm : ((s.insert e).mLogElements.map Node.ref).Perm
        (s.nextRef :: s.mLogElements.map Node.ref) := by
      conv_rhs => rw [← hpos]
      exact perm_middle.map Node.ref
    rw [hperm.nodup_iff, nodup_cons]
    refine ⟨?_, h.nodup⟩
    intro hmem
    obtain ⟨m, hm, href⟩ := mem_map.1 hmem
    exact hnew m hm href
  · intro m hm
    have hcases : m = ⟨s.nextRef, e⟩ ∨ m ∈ s.mLogElements := by
      rw [← hpos]
      simp only [Store.insert, mem_append, mem_cons] at hm ⊢
      tauto
    rcases hcases with rfl | hold
    · exact Nat.lt_succ_self _
    · exact (h.fresh m hold).trans (Nat.lt_succ_self _)
  · intro i ref hlast
    obtain ⟨m, hm, href⟩ := h.last i ref hlast
    exact ⟨m, hsub m hm, href⟩

end Store

end AndroidCore.Logd
