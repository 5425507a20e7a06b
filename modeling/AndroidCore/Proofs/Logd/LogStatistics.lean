import AndroidCore.Logd.LogStatistics
import AndroidCore.Lib.Thinning

/-!
# `AndroidCore.Proofs.Logd.LogStatistics`: the counters match the elements

`Accounts stats es` says that the counters of `stats` are the ones of the elements `es`.
Each operation of `LogStatistics` keeps it, when one element of the list changes as the
operation expects: `add` for a new element, `subtract` for one that goes, `drop` for one
that becomes chatty, `erase` for a chatty one that another one takes in.

`drop` has a condition. A table entry that counts nothing is deleted, so a uid whose only
elements are empty messages may have no entry, and then `drop` has nowhere to count.
-/

namespace AndroidCore.Logd

open Lib

/-! ### Elements -/

namespace LogBufferElement

variable (e : LogBufferElement) (v w : UInt16)

@[simp] theorem setDropped_mUid : (e.setDropped v).mUid = e.mUid := rfl

@[simp] theorem setDropped_mPid : (e.setDropped v).mPid = e.mPid := rfl

@[simp] theorem setDropped_getDropped : (e.setDropped v).getDropped = v := rfl

@[simp] theorem setDropped_getMsgLen : (e.setDropped v).getMsgLen = 0 := rfl

@[simp] theorem setDropped_isBinary : (e.setDropped v).isBinary = e.isBinary := rfl

/-- The tag outlives the message. -/
@[simp] theorem setDropped_getTag : (e.setDropped v).getTag = e.getTag := by
  by_cases htag : e.getTag = 0
  · have hmsg : (e.setDropped v).mMsg = none := if_neg (not_not_intro htag)
    rw [getTag, hmsg, htag]
  · cases hmsg : e.mMsg with
    | none => simp [getTag, hmsg] at htag
    | some msg =>
      have hshort : (e.setDropped v).mMsg = some (msg.take eventHeaderLen) := by
        simp [setDropped, htag, hmsg]
      have hlong : e.mDropped = true ∨ eventHeaderLen ≤ e.msgLenOrDropped.toNat := by
        by_contra h
        simp [getTag, hmsg, h] at htag
      have hdropped : (e.setDropped v).mDropped = true := rfl
      simp [getTag, hshort, hmsg, hlong, hdropped, List.take_take]

/-- Only the last count stays. -/
theorem setDropped_setDropped : (e.setDropped v).setDropped w = e.setDropped w := by
  have hmsg : ((e.setDropped v).setDropped w).mMsg = (e.setDropped w).mMsg := by
    show (if (e.setDropped v).getTag ≠ 0 then _ else _) = if e.getTag ≠ 0 then _ else _
    rw [setDropped_getTag]
    by_cases htag : e.getTag = 0
    · simp [htag]
    · simp [setDropped, htag, Function.comp_def, List.take_take]
  simp only [setDropped] at hmsg ⊢
  rw [hmsg]

/-- A chatty element has no length. -/
theorem getMsgLen_of_dropped {e : LogBufferElement} (h : e.getDropped ≠ 0) : e.getMsgLen = 0 := by
  have hdropped : e.mDropped = true := by
    by_contra hno
    simp [getDropped, hno] at h
  simp [getMsgLen, hdropped]

end LogBufferElement

/-! ### Counters -/

section Count

variable {d e : UInt16}

/-- A dropped count that fits does not wrap. -/
theorem toNat_count (hfit : d.toNat + e.toNat ≤ 65535) : (d + e).toNat = d.toNat + e.toNat := by
  rw [UInt16.toNat_add, Nat.mod_eq_of_lt (by omega)]

theorem count_ne_zero (hd : d ≠ 0) (hfit : d.toNat + e.toNat ≤ 65535) : d + e ≠ 0 := by
  intro h0
  have hsum := UInt16.toNat_inj.2 h0
  have hpos : d.toNat ≠ 0 := fun h => hd (UInt16.toNat_inj.1 h)
  rw [toNat_count hfit, UInt16.toNat_zero] at hsum
  omega

end Count

@[simp] theorem sizeSub_add_self (a b : Nat) : sizeSub (a + b) b = a := by
  simp [sizeSub]

@[simp] theorem sizeSub_zero (a : Nat) : sizeSub a 0 = a := sizeSub_add_self a 0

section Update

variable (table : LogId → Nat) {id i : LogId} {q : Bool} (w : Nat)

/-- A counter of one log goes up. -/
theorem update_add (hq : q = decide (id = i)) :
    update table id (· + w) i = table i + if q then w else 0 := by
  subst hq
  by_cases h : id = i
  · simp [update, h]
  · simp [update, h, Ne.symm h]

/-- A counter of one log goes down. -/
theorem update_sizeSub (hq : q = decide (id = i)) :
    update table id (sizeSub · w) i = sizeSub (table i) (if q then w else 0) := by
  subst hq
  by_cases h : id = i
  · simp [update, h]
  · simp [update, h, Ne.symm h]

end Update

namespace LogHashtable

/-- What a table counts for a key. An absent entry counts nothing. -/
def counts (table : LogHashtable) (key : UInt32) : Nat × Nat :=
  (table.lookup key).elim (0, 0) fun entry => (entry.size, entry.dropped)

variable {table : LogHashtable} {key k : UInt32} {e : LogBufferElement}

theorem counts_insert (entry : Entry) :
    counts (table.insert key entry) key = (entry.size, entry.dropped) := by
  simp [counts]

theorem counts_insert_ne (h : k ≠ key) (entry : Entry) :
    counts (table.insert key entry) k = counts table k := by
  simp [counts, AList.lookup_insert_ne h]

theorem counts_of_lookup {entry : Entry} (h : table.lookup key = some entry) :
    counts table key = (entry.size, entry.dropped) := by
  simp [counts, h]

theorem counts_of_none (h : table.lookup key = none) : counts table key = (0, 0) := by
  simp [counts, h]

theorem counts_add (join : UInt32 → UInt32 → UInt32) :
    counts (table.add join key e) key =
      ((counts table key).1 + e.getMsgLen.toNat, (counts table key).2 + e.getDropped.toNat) := by
  cases h : table.lookup key with
  | none =>
    simp [add, h, counts_insert, counts_of_none h, Entry.new]
  | some entry =>
    simp [add, h, counts_insert, counts_of_lookup h, Entry.add]

theorem counts_add_ne (join : UInt32 → UInt32 → UInt32) (hk : k ≠ key) :
    counts (table.add join key e) k = counts table k := by
  cases h : table.lookup key with
  | none | some entry => simp [add, h, counts_insert_ne hk]

/-- `subtract` takes off what `e` counts, if it is counted. -/
theorem counts_subtract {a b : Nat}
    (hcounts : counts table key = (a + e.getMsgLen.toNat, b + e.getDropped.toNat)) :
    counts (table.subtract key e) key = (a, b) := by
  cases h : table.lookup key with
  | none =>
    rw [counts_of_none h, Prod.mk.injEq] at hcounts
    simp only [subtract, h, counts_of_none h, Prod.mk.injEq]
    omega
  | some entry =>
    rw [counts_of_lookup h, Prod.mk.injEq] at hcounts
    have hsize : (entry.subtract e).size = a := by
      simp [Entry.subtract, hcounts.1]
    have hdropped : (entry.subtract e).dropped = b := by
      simp [Entry.subtract, hcounts.2]
    simp only [subtract, h, hsize, hdropped]
    by_cases hzero : a = 0 ∧ b = 0
    · rw [hzero.1, hzero.2]
      exact counts_of_none (AList.lookup_erase _ _)
    · rw [if_neg hzero, counts_insert, hsize, hdropped]

theorem counts_subtract_ne (hk : k ≠ key) : counts (table.subtract key e) k = counts table k := by
  cases h : table.lookup key with
  | none => simp [subtract, h]
  | some entry =>
    simp only [subtract, h]
    split
    · simp [counts, AList.lookup_erase_ne hk]
    · exact counts_insert_ne hk _

/-- `drop` counts one more and takes off the length, if there is an entry. There is one
when the length is not 0. -/
theorem counts_drop {a b : Nat} (hlen : e.getMsgLen ≠ 0)
    (hcounts : counts table key = (a + e.getMsgLen.toNat, b)) :
    counts (table.drop key e) key = (a, b + 1) := by
  have hpos : e.getMsgLen.toNat ≠ 0 := fun h => hlen (UInt16.toNat_inj.1 h)
  cases h : table.lookup key with
  | none =>
    rw [counts_of_none h, Prod.mk.injEq] at hcounts
    omega
  | some entry =>
    rw [counts_of_lookup h, Prod.mk.injEq] at hcounts
    simp [drop, h, counts_insert, Entry.drop, hcounts.1, hcounts.2]

theorem counts_drop_ne (hk : k ≠ key) : counts (table.drop key e) k = counts table k := by
  cases h : table.lookup key with
  | none => simp [drop, h]
  | some entry => simp [drop, h, counts_insert_ne hk]

end LogHashtable

/-! ### The statistics as a whole -/

/-- The elements of a log. -/
def LogBufferElement.ofLog (id : LogId) (e : LogBufferElement) : Bool := e.mLogId = id

/-- The elements of a uid in a log. -/
def LogBufferElement.ofUid (id : LogId) (uid : UInt32) (e : LogBufferElement) : Bool :=
  e.mLogId = id && e.mUid = uid

@[simp] theorem LogBufferElement.ofLog_setDropped (id : LogId) (e : LogBufferElement)
    (v : UInt16) : ofLog id (e.setDropped v) = ofLog id e := rfl

@[simp] theorem LogBufferElement.ofUid_setDropped (id : LogId) (uid : UInt32)
    (e : LogBufferElement) (v : UInt16) : ofUid id uid (e.setDropped v) = ofUid id uid e := rfl

open LogBufferElement
/-- The counters are the ones of the elements `es`: the size, the number and the number of
chatty ones for each log, and the size and the dropped count for each uid of a log other
than the kernel's. -/
structure Accounts (stats : LogStatistics) (es : List LogBufferElement) : Prop where
  sizes : ∀ id, stats.mSizes id = tally (ofLog id) (·.getMsgLen.toNat) es
  elements : ∀ id, stats.mElements id = es.countP (ofLog id)
  dropped : ∀ id, stats.mDroppedElements id = es.countP fun e => ofLog id e && e.getDropped ≠ 0
  uids : ∀ id, id ≠ .kernel → ∀ uid, (stats.uidTable id).counts uid =
    (tally (ofUid id uid) (·.getMsgLen.toNat) es, tally (ofUid id uid) (·.getDropped.toNat) es)

namespace LogStatistics

section Tables

variable (stats : LogStatistics) (e : LogBufferElement) (kernel : Bool)
  (uids pids tags : LogHashtable → UInt32 → LogBufferElement → LogHashtable)

@[simp] theorem tables_mSizes : (stats.tables e kernel uids pids tags).mSizes = stats.mSizes := by
  simp [tables, apply_ite mSizes]

@[simp] theorem tables_mElements :
    (stats.tables e kernel uids pids tags).mElements = stats.mElements := by
  simp [tables, apply_ite mElements]

@[simp] theorem tables_mDroppedElements :
    (stats.tables e kernel uids pids tags).mDroppedElements = stats.mDroppedElements := by
  simp [tables, apply_ite mDroppedElements]

/-- Outside of the kernel log the uid table of the element's log is changed, and no other
one. -/
theorem tables_uidTable {id : LogId} (hid : id ≠ .kernel) :
    (stats.tables e kernel uids pids tags).uidTable id =
      if id = e.mLogId then uids (stats.uidTable id) e.mUid e else stats.uidTable id := by
  by_cases h : e.mLogId = .kernel ∧ kernel = false
  · have hne : id ≠ e.mLogId := fun h' => hid (h'.trans h.1)
    rw [if_neg hne]
    simp [tables, if_pos h]
  · simp [tables, if_neg h, update]

open LogHashtable
/-- What the uid tables count, if `uids` changes the entry of a uid and no other one. -/
theorem tables_counts {id : LogId} (hid : id ≠ .kernel)
    (hother : ∀ table key k, k ≠ key → counts (uids table key e) k = counts table k)
    (uid : UInt32) :
    ((stats.tables e kernel uids pids tags).uidTable id).counts uid =
      if ofUid id uid e then counts (uids (stats.uidTable id) uid e) uid
      else (stats.uidTable id).counts uid := by
  rw [tables_uidTable _ _ _ _ _ _ hid]
  by_cases hlog : e.mLogId = id
  · by_cases huid : e.mUid = uid
    · simp [hlog, huid, ofUid]
    · simp [hlog, huid, ofUid, hother _ _ _ (Ne.symm huid)]
  · simp [hlog, Ne.symm hlog, ofUid]

end Tables

section Fields

open LogHashtable

variable (stats : LogStatistics) (e : LogBufferElement) {id : LogId} (uid : UInt32)

theorem add_mDroppedElements (id : LogId) : (stats.add e).mDroppedElements id =
    stats.mDroppedElements id + if ofLog id e && e.getDropped ≠ 0 then 1 else 0 := by
  by_cases h : e.getDropped = 0
  · simp [add, h]
  · rw [add, tables_mDroppedElements]
    simp only [ne_eq, h, not_false_eq_true, decide_true, Bool.and_true]
    exact update_add _ _ rfl

theorem add_counts (hid : id ≠ .kernel) : ((stats.add e).uidTable id).counts uid =
    (((stats.uidTable id).counts uid).1 + (if ofUid id uid e then e.getMsgLen.toNat else 0),
      ((stats.uidTable id).counts uid).2 + if ofUid id uid e then e.getDropped.toNat else 0) := by
  rw [add, tables_counts _ _ _ _ _ _ hid fun _ _ _ => counts_add_ne _]
  cases ofUid id uid e with
  | true => exact counts_add _
  | false => rfl

theorem subtract_mDroppedElements (id : LogId) : (stats.subtract e).mDroppedElements id =
    sizeSub (stats.mDroppedElements id) (if ofLog id e && e.getDropped ≠ 0 then 1 else 0) := by
  by_cases h : e.getDropped = 0
  · simp [subtract, h]
  · rw [subtract, tables_mDroppedElements]
    simp only [ne_eq, h, not_false_eq_true, decide_true, Bool.and_true]
    exact update_sizeSub _ _ rfl

theorem subtract_counts (hid : id ≠ .kernel) {a b : Nat}
    (h : (stats.uidTable id).counts uid =
      (a + (if ofUid id uid e then e.getMsgLen.toNat else 0),
        b + if ofUid id uid e then e.getDropped.toNat else 0)) :
    ((stats.subtract e).uidTable id).counts uid = (a, b) := by
  rw [subtract, tables_counts _ _ _ _ _ _ hid fun _ _ _ => counts_subtract_ne]
  cases hq : ofUid id uid e with
  | true =>
    rw [hq] at h
    exact counts_subtract h
  | false =>
    rw [hq] at h
    exact h

theorem drop_counts (hid : id ≠ .kernel) (hlen : e.getMsgLen ≠ 0) {a b : Nat}
    (h : (stats.uidTable id).counts uid =
      (a + (if ofUid id uid e then e.getMsgLen.toNat else 0), b)) :
    ((stats.drop e).uidTable id).counts uid = (a, b + if ofUid id uid e then 1 else 0) := by
  rw [drop, tables_counts _ _ _ _ _ _ hid fun _ _ _ => counts_drop_ne]
  cases hq : ofUid id uid e with
  | true =>
    rw [hq] at h
    exact counts_drop hlen h
  | false =>
    rw [hq] at h
    exact h

end Fields

end LogStatistics

namespace Accounts

open LogStatistics

variable {stats : LogStatistics} {xs ys zs : List LogBufferElement} {e f : LogBufferElement}

/-- At the start there is nothing. -/
theorem new (enable : Bool) : Accounts (.new enable) [] where
  sizes _ := rfl
  elements _ := rfl
  dropped _ := rfl
  uids _ _ _ := rfl

/-- An element is added. -/
theorem add (h : Accounts stats (xs ++ ys)) : Accounts (stats.add e) (xs ++ e :: ys) where
  sizes id := by
    rw [LogStatistics.add, tables_mSizes, tally_middle, ← h.sizes]
    exact update_add _ _ rfl
  elements id := by
    rw [LogStatistics.add, tables_mElements, countP_middle, ← h.elements]
    exact update_add _ _ rfl
  dropped id := by rw [stats.add_mDroppedElements, countP_middle, h.dropped]
  uids id hk uid := by rw [stats.add_counts e uid hk, tally_middle, tally_middle, h.uids id hk]

/-- An element is taken out. -/
theorem subtract (h : Accounts stats (xs ++ e :: ys)) : Accounts (stats.subtract e) (xs ++ ys) where
  sizes id := by
    rw [LogStatistics.subtract, tables_mSizes]
    refine (update_sizeSub _ _ rfl).trans ?_
    rw [h.sizes, tally_middle]
    exact sizeSub_add_self ..
  elements id := by
    rw [LogStatistics.subtract, tables_mElements]
    refine (update_sizeSub _ _ rfl).trans ?_
    rw [h.elements, countP_middle]
    exact sizeSub_add_self ..
  dropped id := by
    rw [stats.subtract_mDroppedElements, h.dropped, countP_middle, sizeSub_add_self]
  uids id hk uid := by
    have hold := h.uids id hk uid
    rw [tally_middle, tally_middle] at hold
    exact stats.subtract_counts e uid hk hold

/-- An element with a message becomes chatty. -/
theorem drop (hlen : e.getMsgLen ≠ 0) (hplain : e.getDropped = 0)
    (h : Accounts stats (xs ++ e :: ys)) :
    Accounts (stats.drop e) (xs ++ e.setDropped 1 :: ys) where
  sizes id := by
    rw [LogStatistics.drop, tables_mSizes]
    refine (update_sizeSub _ _ rfl).trans ?_
    rw [h.sizes, tally_middle, tally_middle]
    simp [ofLog]
  elements id := by
    rw [countP_middle, show (stats.drop e).mElements = stats.mElements by simp [LogStatistics.drop],
      h.elements, countP_middle]
    rfl
  dropped id := by
    rw [LogStatistics.drop, tables_mDroppedElements]
    refine (update_add (q := ofLog id e) _ _ rfl).trans ?_
    rw [h.dropped, countP_middle, countP_middle]
    simp [hplain]
  uids id hk uid := by
    have hold := h.uids id hk uid
    rw [tally_middle, tally_middle] at hold
    rw [stats.drop_counts e uid hk hlen hold, tally_middle, tally_middle]
    cases hq : ofUid id uid e <;> simp [hplain, hq]

/-- A chatty element takes in another one of the same uid. -/
theorem erase (hid : e.mLogId = f.mLogId) (huid : e.mUid = f.mUid)
    (hf : f.getDropped ≠ 0) (he : e.getDropped ≠ 0)
    (hfit : e.getDropped.toNat + f.getDropped.toNat ≤ 65535)
    (h : Accounts stats ((xs ++ f :: ys) ++ e :: zs)) :
    Accounts (stats.erase e)
      ((xs ++ f.setDropped (e.getDropped + f.getDropped) :: ys) ++ zs) := by
  have hsum := toNat_count hfit
  have hne := count_ne_zero he hfit
  -- both lists are the one without the two elements, and a little more
  have hlist : ∀ g : LogBufferElement, (xs ++ g :: ys) ++ zs = xs ++ g :: (ys ++ zs) := fun g => by
    simp
  constructor
  case sizes =>
    intro id
    have hold := h.sizes id
    rw [tally_middle, hlist, tally_middle, getMsgLen_of_dropped he, getMsgLen_of_dropped hf] at hold
    rw [hlist, tally_middle, show (stats.erase e).mSizes = stats.mSizes from rfl, hold]
    simp
  case elements =>
    intro id
    refine (update_sizeSub _ _ rfl).trans ?_
    rw [h.elements, countP_middle, hlist, hlist, countP_middle, countP_middle]
    exact sizeSub_add_self ..
  case dropped =>
    intro id
    have hold := h.dropped id
    rw [countP_middle,
      show (ofLog id e && decide (e.getDropped ≠ 0)) = ofLog id e by simp [he]] at hold
    refine (update_sizeSub (q := ofLog id e) _ _ rfl).trans ?_
    rw [hold, hlist, hlist, countP_middle, countP_middle]
    simp [hf, hne]
  case uids =>
    intro id hk uid
    have hold := h.uids id hk uid
    have hsame : ofUid id uid e = ofUid id uid f := by simp [ofUid, hid, huid]
    rw [tally_middle, tally_middle, hlist, tally_middle, tally_middle, hsame,
      getMsgLen_of_dropped he, getMsgLen_of_dropped hf] at hold
    rw [hlist, tally_middle, tally_middle, show (stats.erase e).uidTable = stats.uidTable from rfl,
      hold, setDropped_getDropped, hsum, ofUid_setDropped]
    cases hq : ofUid id uid f
    · simp
    · simp only [↓reduceIte, setDropped_getMsgLen, UInt16.toNat_zero, Prod.mk.injEq, true_and]
      rw [Nat.add_assoc, Nat.add_comm e.getDropped.toNat]

end Accounts

end AndroidCore.Logd
