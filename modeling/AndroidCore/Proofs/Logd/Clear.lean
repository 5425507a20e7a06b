import AndroidCore.Proofs.Logd.Frame

/-!
# `AndroidCore.Proofs.Logd.Clear`: what `clear` leaves behind

`clear` by root prunes all rows of a log, but from the remembered position `mLast[id]` on
and not from the start of the list. With no reader it erases every element of the log from
there on, and leaves the ones that stand before.

Elements of the log do get before the position. A pass for an unprivileged caller sets it to
the caller's first element, past the ones of other uids, and a message with an older time is
put in before it.
-/

namespace AndroidCore.Logd

open List

/-- With no reader and enough rows, the loop that spares nothing erases the log. -/
theorem Expiry.run_all {p : Region} (hfree : p.oldest = none) (nice : LogBufferElement → Bool)
    (hnice : ∀ e, nice e = false) (todo : List Node) (w : Expiry) (past : List Node)
    (hfits : Cursor.Fits ⟨w.store, past, todo⟩) (hrows : todo.length < w.pruneRows) :
    (Expiry.run p nice todo w).store.mLogElements =
        past ++ todo.filter (fun n => n.elem.mLogId ≠ p.id) ∧
      (Expiry.run p nice todo w).busy = w.busy ∧
      (Expiry.run p nice todo w).whitelist = w.whitelist := by
  induction todo generalizing w past with
  | nil => exact ⟨hfits.nodes, rfl, rfl⟩
  | cons it rest ih =>
    have hpos : w.pruneRows ≠ 0 := by omega
    have hblocks : p.blocks it.elem = false := by simp [Region.blocks, hfree]
    rw [length_cons] at hrows
    by_cases hid : it.elem.mLogId = p.id
    · -- the element is marked, erased and gone
      have hmark : Act p.id (fun _ => True) ⟨w.store, past, it :: rest⟩ _ :=
        .mark w.store past it rest
      have herase : Act p.id (fun _ => True) ⟨w.store.markLast p.id it, past, it :: rest⟩ _ :=
        .erase _ past it rest trivial
      have hnext := ih
        { w with
          store := (w.store.markLast p.id it).erase it false
          pruneRows := w.pruneRows - 1 }
        past (herase.fits (hmark.fits hfits)) (by simp only; omega)
      rw [Expiry.run]
      simp only [hpos, hblocks, hnice]
      simpa [hid] using hnext
    · have hskip : Act p.id (fun _ => True) ⟨w.store, past, it :: rest⟩ _ :=
        .skip w.store past it rest
      have hnext := ih w (past ++ [it]) (hskip.fits hfits) (by omega)
      rw [Expiry.run]
      simp only [hpos]
      simpa [hid] using hnext

namespace Store

/-- The elements before the remembered position of a log. -/
def beforeLast (s : Store) (id : LogId) : List Node :=
  (s.mLast id).elim [] fun ref => s.mLogElements.takeWhile fun n => n.ref ≠ ref

theorem beforeLast_append (s : Store) (id : LogId) :
    s.mLogElements = s.beforeLast id ++ s.fromLast id := by
  cases hlast : s.mLast id with
  | none => simp [beforeLast, fromLast, hlast]
  | some ref =>
    simp only [beforeLast, fromLast, hlast]
    exact s.dropWhile_nodes _

theorem oldestReader_none (id : LogId) (times : List LogTimeEntry)
    (hfree : ∀ entry ∈ times, entry.holds id = false) (index : Nat) :
    oldestReader id times index none = none := by
  induction times generalizing index with
  | nil => rfl
  | cons entry rest ih =>
    rw [oldestReader]
    simp only [hfree entry (mem_cons_self ..)]
    exact ih (fun e he => hfree e (mem_cons_of_mem _ he)) _

/-- `clear` by root, with no reader: the elements of the log from its remembered position on
are gone, and everything else is left. -/
theorem clear_nodes (env : PruneEnv) (wake : Nat → List LogTimeEntry) {s : Store}
    (hvalid : s.Valid) (hfit : s.mLogElements.length < ulongMax) (id : LogId)
    (hfree : ∀ entry ∈ s.mTimes, entry.holds id = false) :
    (s.clear env wake id aidRoot 4).2.mLogElements =
      s.beforeLast id ++ (s.fromLast id).filter fun n => n.elem.mLogId ≠ id := by
  have hlist := s.beforeLast_append id
  have hoverall : (s.fromLast id).length ≤ s.mLogElements.length := by
    rw [hlist, length_append]
    omega
  have hnone : (s.region id).oldest = none := by
    simp [region, oldestReader_none id s.mTimes hfree]
  obtain ⟨hnodes, hbusy, hwhite⟩ := Expiry.run_all hnone (fun _ => false) (fun _ => rfl)
    (s.fromLast id) ⟨s, ulongMax, false, false⟩ (s.beforeLast id)
    ⟨hvalid, hlist⟩ (by simp only; omega)
  have hexpire : s.expire (s.region id) true false ulongMax =
      (false, (Expiry.run (s.region id) (fun _ => false) (s.fromLast id)
        ⟨s, ulongMax, false, false⟩).store) := by
    rw [expire]
    simp only [Bool.not_true, Bool.and_false, Bool.false_and]
    have hid : (s.region id).id = id := rfl
    rw [hid, if_neg (by simp [hwhite]), hbusy, Bool.and_false]
  have hprune : s.prune env id ulongMax aidRoot = s.expire (s.region id) true false ulongMax := by
    simp [prune, pruneFuel]
  rw [clear]
  simp only [OfNat.ofNat_ne_zero, ↓reduceIte, hprune, hexpire]
  exact hnodes

end Store

/-- In every run: with no reader attached, `clear` by root leaves no element of the log if
and only if none stands before the log's remembered position. -/
theorem Buffer.clear_clears_iff (enable : Bool) (maxSize : LogId → Nat) (prune : PruneList)
    (ops : List Op) (penv : PruneEnv) (wake : Nat → List LogTimeEntry) (id : LogId)
    (hfree : ((Buffer.new enable maxSize prune).run ops).store.mTimes = [])
    (hfit : ((Buffer.new enable maxSize prune).run ops).store.mLogElements.length < ulongMax) :
    (∀ n ∈ (((Buffer.new enable maxSize prune).run ops).clear penv wake id
        aidRoot).store.mLogElements, n.elem.mLogId ≠ id) ↔
      ∀ n ∈ ((Buffer.new enable maxSize prune).run ops).store.beforeLast id,
        n.elem.mLogId ≠ id := by
  have hvalid := Buffer.run_valid enable maxSize prune ops
  generalize (Buffer.new enable maxSize prune).run ops = b at hfree hfit hvalid ⊢
  have hnodes := Store.clear_nodes penv wake hvalid hfit id (by simp [hfree])
  show (∀ n ∈ (b.store.clear penv wake id aidRoot 4).2.mLogElements, _) ↔ _
  rw [hnodes]
  constructor
  · intro h n hn
    exact h n (mem_append_left _ hn)
  · intro h n hn
    rcases mem_append.1 hn with hn | hn
    · exact h n hn
    · simpa using (mem_filter.1 hn).2

/-- Three messages, the second one of another uid, which then clears the log. -/
def clearedByOther : Buffer :=
  emptyBuffer.run [zeros 10 1 1 5, zeros 11 2 2 5, zeros 10 3 3 5,
    .clear plainEnv (fun _ => []) .main 11]

/-- Afterwards root clears the log, with no reader, and the first message is still there. -/
theorem Buffer.clear_leaves_first :
    clearedByOther.store.mTimes = [] ∧
    ¬ ∀ n ∈ (clearedByOther.clear plainEnv (fun _ => []) .main aidRoot).store.mLogElements,
      n.elem.mLogId ≠ .main := by
  decide +kernel

/-- Without the unprivileged `clear`, all of the log goes. -/
theorem Buffer.clear_clears_twoMessages :
    ¬ ∃ n ∈ ((emptyBuffer.run [zeros 10 1 1 5, zeros 11 2 2 5]).clear plainEnv (fun _ => []) .main
      aidRoot).store.mLogElements, n.elem.mLogId = .main := by
  rintro ⟨n, hn, hmain⟩
  exact (clear_clears_iff false (fun _ => 65536) noLists [zeros 10 1 1 5, zeros 11 2 2 5] plainEnv
    (fun _ => []) .main (by decide +kernel) (by decide +kernel)).2 (by decide +kernel) n hn hmain

end AndroidCore.Logd
