import AndroidCore.Libutils.LruCache

/-!
# `AndroidCore.Proofs.Libutils.LruCache`: a rejected `put`

`put` makes room before it looks for the key. So a `put` that finds the key in a full cache has
evicted another entry (`put_rejected_iff`).
-/

namespace AndroidCore.Libutils.LruCache

variable {K V : Type} [DecidableEq K]

theorem length_removeOldest (s : LruCache K V) :
    s.removeOldest.2.entries.length = s.entries.length - 1 := by
  unfold removeOldest
  split
  case h_1 hnil => rw [hnil]; rfl
  case h_2 oldest rest hcons => simp [remove, findByKey, hcons]

/-- A `put` that is rejected leaves the cache as it was exactly when the cache was not full. -/
theorem put_rejected_iff (s : LruCache K V) (key : K) (value : V)
    (h : (s.put key value).1 = false) : (s.put key value).2 = s ↔ ¬ s.Full := by
  have hput : (s.put key value).2 = if s.Full then s.removeOldest.2 else s := by
    revert h
    unfold put
    generalize (if s.Full then s.removeOldest.2 else s) = t
    dsimp only
    split
    · exact fun _ => rfl
    · exact nofun
  rw [hput]
  refine ⟨fun heq hfull => ?_, fun hfull => if_neg hfull⟩
  -- the evicted entry is missing
  have hlength := congrArg (fun s => s.entries.length) heq
  rw [if_pos hfull, length_removeOldest] at hlength
  have := hfull.1
  have := hfull.2
  omega

theorem put_rejected_iff_roomy :
    ((⟨[(1, 10), (2, 20)], 3, true, []⟩ : LruCache Nat Nat).put 2 0).2 =
      ⟨[(1, 10), (2, 20)], 3, true, []⟩ :=
  (put_rejected_iff ⟨[(1, 10), (2, 20)], 3, true, []⟩ 2 0 rfl).mpr (by decide)

/-- The second key is present, and the first one is evicted. -/
theorem put_rejected_evicts :
    (⟨[(1, 10), (2, 20)], 2, true, []⟩ : LruCache Nat Nat).put 2 0 =
      (false, ⟨[(2, 20)], 2, true, [(1, 10)]⟩) := rfl

end AndroidCore.Libutils.LruCache
