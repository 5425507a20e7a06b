import AndroidCore.Logd.Prune
import AndroidCore.Proofs.Logd.Acts

/-!
# `AndroidCore.Proofs.Logd.Prune`: `prune` is made of acts

Each loop of `prune` is a sequence of acts, and each node that it erases or changes has
passed the checks of its log, its uid and the watermark. In the first loop the chatty
nodes in `last` are nodes it has passed, so they have passed the checks as well.

A batch that finds the offender uses up a row, so the first loop ends. `Pays` is what an
iteration does to the rows.
-/

namespace AndroidCore.Logd

open List Option

/-! ### Loops -/

/-- The loops lead from one store to another. -/
def Leads (id : LogId) (P : Node → Prop) (c : Cursor) (s : Store) : Prop :=
  ∃ past todo, Acts id P c ⟨s, past, todo⟩

namespace Leads

variable {id : LogId} {P : Node → Prop} {c c' : Cursor} {s s' : Store}

theorem refl (s : Store) (past todo : List Node) : Leads id P ⟨s, past, todo⟩ s :=
  ⟨past, todo, .refl⟩

theorem head (h : Act id P c c') (h' : Leads id P c' s) : Leads id P c s := by
  obtain ⟨past, todo, hacts⟩ := h'
  exact ⟨past, todo, .head h hacts⟩

theorem append (h : Acts id P c c') (h' : Leads id P c' s) : Leads id P c s := by
  obtain ⟨past, todo, hacts⟩ := h'
  exact ⟨past, todo, h.trans hacts⟩

/-- The next loop starts from any place in the list. -/
theorem trans (hc : c.Fits) (h : Leads id P c s) {past todo : List Node}
    (hnodes : s.Valid → s.mLogElements = past ++ todo)
    (h' : Leads id P ⟨s, past, todo⟩ s') : Leads id P c s' := by
  obtain ⟨past₁, todo₁, hacts⟩ := h
  have hfits := hacts.fits hc
  have hsame : past ++ todo = past₁ ++ todo₁ := (hnodes hfits.valid).symm.trans hfits.nodes
  exact append (hacts.tail (.restart s past₁ todo₁ past todo hsame)) h'

theorem valid (hc : c.Fits) (h : Leads id P c s) : s.Valid := by
  obtain ⟨past, todo, hacts⟩ := h
  exact (hacts.fits hc).valid

end Leads

/-! ### The loops that only erase -/

namespace Store

variable {P : Node → Prop} {p : Region}

/-- At the watermark only readers are touched. -/
theorem stopAt_leads (s : Store) (mitigate : Bool) (pruneRows : Nat) (past todo : List Node) :
    Leads p.id P ⟨s, past, todo⟩ (s.stopAt p mitigate pruneRows).2 := by
  rw [stopAt]
  split
  · exact .refl s past todo
  · simp only
    split
    · exact .head (.readers s past todo _) (.refl _ past todo)
    · exact .refl s past todo

theorem pruneUid_leads {callerUid : UInt32}
    (hP : ∀ n : Node, n.elem.mLogId = p.id → n.elem.mUid = callerUid →
      p.blocks n.elem = false → P n)
    (todo : List Node) (pruneRows : Nat) (s : Store) (past : List Node) :
    Leads p.id P ⟨s, past, todo⟩ (pruneUid p callerUid todo pruneRows s).2 := by
  induction todo generalizing pruneRows s past with
  | nil => exact .refl s past []
  | cons it rest ih =>
    rw [pruneUid]
    by_cases hother : it.elem.mLogId ≠ p.id ∨ it.elem.mUid ≠ callerUid
    · rw [if_pos hother]
      exact .head (.skip s past it rest) (ih pruneRows s _)
    · rw [if_neg hother]
      have hit : it.elem.mLogId = p.id ∧ it.elem.mUid = callerUid := by
        simpa only [not_or, not_not] using hother
      refine .head (.mark s past it rest) ?_
      cases hblocks : p.blocks it.elem
      · refine .head (.erase _ past it rest (hP it hit.1 hit.2 hblocks)) ?_
        simp only [Bool.false_eq_true, ↓reduceIte]
        split
        · exact .refl _ past rest
        · exact ih _ _ past
      · exact stopAt_leads _ true pruneRows past _

end Store

theorem Expiry.run_leads {P : Node → Prop} {p : Region}
    (hP : ∀ n : Node, n.elem.mLogId = p.id → p.blocks n.elem = false → P n)
    (nice : LogBufferElement → Bool) (todo : List Node) (w : Expiry) (past : List Node) :
    Leads p.id P ⟨w.store, past, todo⟩ (Expiry.run p nice todo w).store := by
  induction todo generalizing w past with
  | nil => exact .refl w.store past []
  | cons it rest ih =>
    rw [Expiry.run]
    by_cases hrows : w.pruneRows = 0
    · rw [if_pos hrows]
      exact .refl w.store past _
    rw [if_neg hrows]
    by_cases hid : it.elem.mLogId = p.id
    · rw [if_neg (not_not_intro hid)]
      refine .head (.mark w.store past it rest) ?_
      cases hblocks : p.blocks it.elem
      · simp only [Bool.false_eq_true, ↓reduceIte]
        split
        · exact .head (.skip _ past it rest) (ih ⟨_, w.pruneRows, w.busy, true⟩ _)
        · exact .head (.erase _ past it rest (hP it hid hblocks))
            (ih ⟨_, w.pruneRows - 1, w.busy, w.whitelist⟩ past)
      · exact Store.stopAt_leads _ _ w.pruneRows past _
    · rw [if_pos hid]
      exact .head (.skip w.store past it rest) (ih w _)

/-! ### The first loop: chatty nodes that are remembered -/

/-- The nodes of `last` are chatty ones that were passed. -/
def LogBufferElementLast.Ok (id : LogId) (P : Node → Prop) (past : List Node)
    (last : LogBufferElementLast) : Prop :=
  ∀ k ref, last k = some ref → ∃ found ∈ past, found.ref = ref ∧ found.elem.lastKey = k ∧
    found.elem.getDropped ≠ 0 ∧ found.elem.mLogId = id ∧ P found

namespace LogBufferElementLast.Ok

variable {id : LogId} {P : Node → Prop} {past : List Node} {last : LogBufferElementLast}

theorem empty : Ok id P past fun _ => none := by
  intro k ref h
  cases h

section
variable (h : Ok id P past last)
include h

theorem mono {past' : List Node} (hsub : ∀ n ∈ past, n ∈ past') : Ok id P past' last := by
  intro k ref hk
  obtain ⟨found, hmem, hfound⟩ := h k ref hk
  exact ⟨found, hsub found hmem, hfound⟩

theorem clear (s : Store) (e : LogBufferElement) : Ok id P past (last.clear s e) := by
  intro k ref hk
  exact h k ref (eq_some_of_filter_eq_some hk)

theorem remove (key : LogBufferElementKey) : Ok id P past (last.set key none) := by
  intro k ref hk
  simp only [LogBufferElementLast.set] at hk
  split at hk
  · cases hk
  · exact h k ref hk

theorem add {it : Node} (hid : it.elem.mLogId = id) (hdropped : it.elem.getDropped ≠ 0)
    (hp : P it) : Ok id P (past ++ [it]) (last.add it) := by
  intro k ref hk
  simp only [LogBufferElementLast.add, LogBufferElementLast.set] at hk
  split at hk
  case isTrue hkey =>
    exact ⟨it, by simp, some.inj hk, hkey.symm, hdropped, hid, hp⟩
  case isFalse =>
    exact h.mono (fun n => mem_append_left _) k ref hk

end

/-- A chatty node has another count afterwards. -/
theorem setDropped (hP : ∀ n v, P n → P (Node.setDropped n v)) {us vs : List Node} {n : Node}
    (h : Ok id P (us ++ n :: vs) last) {v : UInt16} (hv : v ≠ 0) :
    Ok id P (us ++ n.setDropped v :: vs) last := by
  intro k ref hk
  obtain ⟨found, hmem, href, hkey, hdropped, hid, hp⟩ := h k ref hk
  by_cases hn : found = n
  · subst hn
    exact ⟨found.setDropped v, by simp, href, hkey, hv, hid, hP found v hp⟩
  · refine ⟨found, ?_, href, hkey, hdropped, hid, hp⟩
    have hother : found ∈ us ∨ found ∈ vs := by simpa [hn] using hmem
    rcases hother with hother | hother <;> simp [hother]

end LogBufferElementLast.Ok

namespace Sweep

open LogBufferElementLast

/-- The iteration leads to the store of the result. If the loop goes on, then it does so
with `rest`. -/
def Goes (id : LogId) (P : Node → Prop) (c : Cursor) (rest : List Node) (r : Sweep × Bool) : Prop :=
  ∃ past todo, Acts id P c ⟨r.1.store, past, todo⟩ ∧
    (r.2 = true → todo = rest ∧ Ok id P past r.1.last)

section Loop

variable {id : LogId} {P : Node → Prop} {w : Sweep} {c c' : Cursor} {past rest : List Node}
  {it : Node} {b : Batch} {env : PruneEnv}

theorem Goes.head (h : Act id P c c') {r : Sweep × Bool} (h' : Goes id P c' rest r) :
    Goes id P c rest r := by
  obtain ⟨past, todo, hacts, hgo⟩ := h'
  exact ⟨past, todo, .head h hacts, hgo⟩

/-- The loop goes on. -/
theorem Goes.on (hok : Ok id P past w.last) (go : Bool) :
    Goes id P ⟨w.store, past, rest⟩ rest (w, go) :=
  ⟨past, rest, .refl, fun _ => ⟨rfl, hok⟩⟩

/-- The loop ends. -/
theorem Goes.stop (todo : List Node) : Goes id P ⟨w.store, past, todo⟩ rest (w, false) :=
  ⟨past, todo, .refl, fun h => Bool.noConfusion h⟩

/-- `settle` changes neither the store nor `last`. -/
theorem Goes.settle (len : UInt16) (hok : Ok id P past w.last) :
    Goes id P ⟨w.store, past, rest⟩ rest (w.settle b len) := by
  rw [Sweep.settle]
  split
  · exact .stop rest
  · exact Goes.on hok true

/-- Either the count does not fit and the store stays, or a chatty node that was passed
takes it. -/
theorem coalesce_cases (hvalid : w.store.Valid) (hnodes : ∀ n ∈ past, n ∈ w.store.mLogElements)
    (hok : Ok id P past w.last) (it : Node) (dropped : UInt16) :
    (∃ last, w.coalesce it dropped = ({ w with last := last }, false) ∧ Ok id P past last) ∨
    ∃ us found vs, past = us ++ found :: vs ∧ P found ∧ found.elem.mLogId = id ∧
      it.elem.mUid = found.elem.mUid ∧ found.elem.getDropped ≠ 0 ∧
      dropped.toNat + found.elem.getDropped.toNat ≤ 65535 ∧
      w.coalesce it dropped =
        ({ w with store := w.store.setDropped found.ref (dropped + found.elem.getDropped) },
          true) := by
  cases hlast : w.last it.elem.lastKey with
  | none =>
    refine .inl ⟨w.last, ?_, hok⟩
    simp [coalesce, hlast]
  | some ref =>
    obtain ⟨found, hmem, rfl, hkey, hdropped, hid, hp⟩ := hok _ _ hlast
    have hat := hvalid.elemAt_eq (hnodes found hmem)
    by_cases hfull : 65535 < dropped.toNat + found.elem.getDropped.toNat
    · refine .inl ⟨w.last.set it.elem.lastKey none, ?_, hok.remove _⟩
      simp [coalesce, hlast, hat, hfull]
    · obtain ⟨us, vs, hpast⟩ := append_of_mem hmem
      have huid : it.elem.mUid = found.elem.mUid :=
        congrArg LogBufferElementKey.uid hkey.symm
      refine .inr ⟨us, found, vs, hpast, hp, hid, huid, hdropped, Nat.le_of_not_lt hfull, ?_⟩
      simp [coalesce, hlast, hat, hfull]

theorem blacklisted_goes (hp : P it) (hok : Ok id P past w.last) :
    Goes id P ⟨w.store, past, it :: rest⟩ rest (w.blacklisted env b it) := by
  have hcleared := hok.clear w.store it.elem
  refine .head (.erase w.store past it rest hp) ?_
  simp only [blacklisted]
  split
  · exact ⟨past, rest, .refl, fun _ => ⟨rfl, hcleared⟩⟩
  · split
    · exact ⟨past, rest, .refl, fun h => Bool.noConfusion h⟩
    · split
      · exact Goes.settle (w := { w with
          store := _, last := _, pruneRows := _, kick := true }) _ hcleared
      · exact ⟨past, rest, .refl, fun _ => ⟨rfl, hcleared⟩⟩

section
variable (hid : it.elem.mLogId = b.region.id) (hp : P it) (hok : Ok b.region.id P past w.last)
include hid

/-- The position of the offender is remembered or not, and then the loop goes on. -/
theorem worst_goes {k : Sweep → Sweep × Bool}
    (hlast : ∀ s, Goes b.region.id P ⟨s, past, it :: rest⟩ rest
      (k { w with store := s, last := w.last.add it }))
    (q : Prop) [Decidable q] (s : Store) :
    Goes b.region.id P ⟨s, past, it :: rest⟩ rest (k { w with
      store := if q then s.setLastWorst b.region.id it.elem.key it else s
      last := w.last.add it }) := by
  split
  · exact .head (.worst s past it rest hid) (hlast _)
  · exact hlast s

include hp hok

theorem keepChatty_goes (hdropped : it.elem.getDropped ≠ 0) :
    Goes b.region.id P ⟨w.store, past, it :: rest⟩ rest (w.keepChatty b it, true) := by
  have hadded := hok.add hid hdropped hp
  have hlast : ∀ s : Store, Goes b.region.id P ⟨s, past, it :: rest⟩ rest
      ({ w with store := s, last := w.last.add it }, true) := fun s =>
    .head (.skip s past it rest) ⟨past ++ [it], rest, .refl, fun _ => ⟨rfl, hadded⟩⟩
  simp only [keepChatty]
  split
  · exact .head (.worstPid w.store past it rest hid) (worst_goes (k := (·, true)) hid hlast _ _)
  · exact worst_goes (k := (·, true)) hid hlast _ _

theorem keepDropped_goes (hdropped : it.elem.getDropped ≠ 0) (hkey : it.elem.key = b.worst)
    (hpid : b.worstPid ≠ 0 → it.elem.mPid = b.worstPid) (len : UInt16) :
    Goes b.region.id P ⟨w.store, past, it :: rest⟩ rest ((w.keepDropped b it).settle b len) := by
  have hadded := hok.add hid hdropped hp
  have hlast : ∀ s : Store, Goes b.region.id P ⟨s, past, it :: rest⟩ rest
      (Sweep.settle { w with store := s, last := w.last.add it } b len) := fun s =>
    .head (.skip s past it rest)
      (Goes.settle (w := { w with store := s, last := w.last.add it }) len hadded)
  simp only [keepDropped, ← hkey]
  split
  case isTrue h =>
    exact .head (hpid h.1 ▸ .worstPid w.store past it rest hid)
      (worst_goes (k := (·.settle b len)) hid hlast _ _)
  case isFalse => exact worst_goes (k := (·.settle b len)) hid hlast _ _

omit hid hp hok

/-- A node that was taken in. -/
theorem merge_goes (hP : ∀ n v, P n → P (Node.setDropped n v)) {us vs : List Node} {found : Node}
    (hpf : P found) (hp : P it) (hlog : it.elem.mLogId = found.elem.mLogId)
    (huid : it.elem.mUid = found.elem.mUid) (hne : found.elem.getDropped ≠ 0)
    (hdropped : it.elem.getDropped ≠ 0)
    (hfit : it.elem.getDropped.toNat + found.elem.getDropped.toNat ≤ 65535)
    (hok : Ok id P (us ++ found :: vs) w.last) :
    Goes id P ⟨w.store, us ++ found :: vs, it :: rest⟩ rest
      (Sweep.erase { w with
        store := w.store.setDropped found.ref (it.elem.getDropped + found.elem.getDropped) }
        it true, true) :=
  .head (.merge w.store us found vs it rest hpf hp hlog huid hne hdropped hfit)
    ⟨_, rest, .refl, fun _ => ⟨rfl, hok.setDropped hP (count_ne_zero hdropped hfit)⟩⟩

variable (hP : ∀ n v, P n → P (Node.setDropped n v))
  (hfits : Cursor.Fits ⟨w.store, past, it :: rest⟩)
include hid hp hok hP hfits

theorem offending_goes (hplain : it.elem.getDropped = 0) (hkey : it.elem.key = b.worst)
    (hpid : b.worstPid ≠ 0 → it.elem.mPid = b.worstPid) :
    Goes b.region.id P ⟨w.store, past, it :: rest⟩ rest (w.offending b it) := by
  simp only [offending]
  split
  · exact Goes.stop _
  split
  · exact .head (.erase w.store past it rest hp)
      (Goes.settle (w := { w with store := _, pruneRows := _, kick := true }) _ hok)
  -- the element becomes a chatty one, and then it is like the others
  have hdrop : Act b.region.id P ⟨w.store, past, it :: rest⟩ _ :=
    .drop w.store past it rest hp hplain
  refine .head hdrop ?_
  have hfits' := hdrop.fits hfits
  have hpast : ∀ n ∈ past, n ∈ Store.mLogElements
      ({ w.store with stats := w.store.stats.drop it.elem }.setDropped it.ref 1) := by
    intro n hn
    rw [hfits'.nodes]
    exact mem_append_left _ hn
  have hid' : (it.setDropped 1).elem.mLogId = b.region.id := hid
  have hone : (it.setDropped 1).elem.getDropped ≠ 0 := by simp [Node.setDropped]
  rcases coalesce_cases (w := Sweep.drop { w with pruneRows := w.pruneRows - 1, kick := true } it)
    hfits'.valid hpast hok (it.setDropped 1) 1 with
    ⟨last, hno, hlast⟩ | ⟨us, found, vs, rfl, hpf, hidf, huid, hne, hfit, hyes⟩
  · rw [hno]
    exact keepDropped_goes (w := { Sweep.drop { w with pruneRows := _, kick := true } it with
      last := last }) hid' (hP it 1 hp) hlast hone ((it.elem.setDropped_key 1).trans hkey) hpid _
  · rw [hyes]
    refine .head (.merge _ us found vs (it.setDropped 1) rest hpf (hP it 1 hp)
      (hid'.trans hidf.symm) huid hne hone hfit) ?_
    have hcount := count_ne_zero hone hfit
    exact Goes.settle (w := { w with store := _, pruneRows := _, kick := true }) _
      (hok.setDropped hP hcount)

theorem classify_goes :
    Goes b.region.id P ⟨w.store, past, it :: rest⟩ rest (w.classify env b it) := by
  simp only [classify]
  split
  · exact blacklisted_goes hp hok
  split
  · exact .stop _
  split
  case isTrue hdropped => exact keepChatty_goes hid hp hok hdropped
  case isFalse hplain =>
    split
    case isTrue =>
      exact .head (.skip w.store past it rest)
        ⟨past ++ [it], rest, .refl, fun _ => ⟨rfl,
          (hok.clear w.store it.elem).mono fun n => mem_append_left _⟩⟩
    case isFalse hoffends =>
      have hsame : it.elem.key = b.worst ∧ (b.worstPid ≠ 0 → it.elem.mPid = b.worstPid) := by
        simpa only [not_or, not_and, not_not] using hoffends
      exact offending_goes hid hp hok hP hfits (not_not.1 hplain) hsame.1 hsame.2

/-- An element of the log that is not held back. -/
theorem visit_goes (env : PruneEnv) :
    Goes b.region.id P ⟨w.store, past, it :: rest⟩ rest (w.visit env b it) := by
  simp only [visit]
  split
  · -- a leading drop
    exact .head (.erase w.store past it rest hp) ⟨past, rest, .refl, fun _ => ⟨rfl, hok⟩⟩
  split
  · exact classify_goes hid hp hok hP hfits
  case isFalse hdropped =>
    have hpast : ∀ n ∈ past, n ∈ w.store.mLogElements := by
      intro n hn
      rw [hfits.nodes]
      exact mem_append_left _ hn
    rcases coalesce_cases hfits.valid hpast hok it it.elem.getDropped with
      ⟨last, hno, hlast⟩ | ⟨us, found, vs, rfl, hpf, hidf, huid, hne, hfit, hyes⟩
    · rw [hno]
      exact classify_goes (w := { w with last := last }) hid hp hlast hP hfits
    · rw [hyes]
      exact merge_goes hP hpf hp (hid.trans hidf.symm) huid hne hdropped hfit hok

end

variable (env : PruneEnv) (hP : ∀ n v, P n → P (Node.setDropped n v))
  (hperm : ∀ n : Node, n.elem.mLogId = b.region.id → b.region.blocks n.elem = false → P n)
include hP hperm

/-- One iteration of a batch. -/
theorem step_goes (hfits : Cursor.Fits ⟨w.store, past, it :: rest⟩)
    (hok : Ok b.region.id P past w.last) :
    Goes b.region.id P ⟨w.store, past, it :: rest⟩ rest (w.step env b it) := by
  rw [step]
  cases hblocks : b.region.blocks it.elem
  case true => exact Goes.stop _
  case false =>
    rw [if_neg Bool.false_ne_true]
    by_cases hid : it.elem.mLogId = b.region.id
    · have hp := hperm it hid hblocks
      rw [if_neg (not_not_intro hid)]
      split
      · -- the position of the log is remembered first
        have hmark : Act b.region.id P ⟨w.store, past, it :: rest⟩ _ := .mark w.store past it rest
        exact .head hmark (visit_goes (w := { w with store := w.store.markLast b.region.id it })
          hid hp hok hP (hmark.fits hfits) env)
      · exact visit_goes hid hp hok hP hfits env
    · rw [if_pos hid]
      exact .head (.skip w.store past it rest)
        (.on (hok.mono fun n => mem_append_left _) true)

/-- A batch from a node on. -/
theorem run_leads (todo : List Node) (w : Sweep) (past : List Node)
    (hfits : Cursor.Fits ⟨w.store, past, todo⟩) (hok : Ok b.region.id P past w.last) :
    Leads b.region.id P ⟨w.store, past, todo⟩ (run env b todo w).store := by
  induction todo generalizing w past with
  | nil => exact .refl w.store past []
  | cons it rest ih =>
    obtain ⟨past', todo', hacts, hgo⟩ := step_goes env hP hperm hfits hok
    rw [run]
    cases hnext : (w.step env b it).2
    case false => exact ⟨past', todo', hacts⟩
    case true =>
      obtain ⟨rfl, hok'⟩ := hgo hnext
      exact .append hacts (ih _ past' (hacts.fits hfits) hok')

end Loop

/-! ### Rows -/

/-- From `w` to `w'` no rows are won, and `kick` costs one. -/
def Pays (w w' : Sweep) : Prop :=
  w'.pruneRows ≤ w.pruneRows ∧ (w'.kick = true → w.kick = true ∨ w'.pruneRows < w.pruneRows)

section Pays

variable {w w' w'' : Sweep} {it : Node} {b : Batch} {env : PruneEnv}

theorem Pays.of_eq (hrows : w'.pruneRows = w.pruneRows) (hkick : w'.kick = w.kick) : Pays w w' :=
  ⟨hrows.le, fun h => .inl (hkick ▸ h)⟩

theorem Pays.of_lt (hrows : w'.pruneRows < w.pruneRows) : Pays w w' :=
  ⟨hrows.le, fun _ => .inr hrows⟩

theorem Pays.trans (h : Pays w w') (h' : Pays w' w'') : Pays w w'' := by
  refine ⟨h'.1.trans h.1, fun hkick => ?_⟩
  rcases h'.2 hkick with hkick | hlt
  · exact (h.2 hkick).imp_right h'.1.trans_lt
  · exact .inr (hlt.trans_le h.1)

theorem settle_rows (len : UInt16) :
    (w.settle b len).1.pruneRows = w.pruneRows ∧ (w.settle b len).1.kick = w.kick := by
  rw [settle]
  split <;> exact ⟨rfl, rfl⟩

theorem coalesce_rows (w : Sweep) (it : Node) (dropped : UInt16) :
    (w.coalesce it dropped).1.pruneRows = w.pruneRows ∧
      (w.coalesce it dropped).1.kick = w.kick := by
  rw [coalesce]
  split
  · exact ⟨rfl, rfl⟩
  · simp only
    split <;> exact ⟨rfl, rfl⟩

theorem blacklisted_pays : Pays w (w.blacklisted env b it).1 := by
  simp only [blacklisted]
  split
  · exact .of_eq rfl rfl
  split
  · exact ⟨Nat.sub_le _ _, .inl⟩
  case isFalse hrows =>
    have hlt : w.pruneRows - 1 < w.pruneRows := by
      change ¬ w.pruneRows - 1 = 0 at hrows
      omega
    split
    · exact .of_lt ((settle_rows _).1.trans_lt hlt)
    · exact .of_lt hlt

theorem offending_pays : Pays w (w.offending b it).1 := by
  simp only [offending]
  split
  · exact ⟨Nat.sub_le _ _, .inl⟩
  case isFalse hrows =>
    have hlt : w.pruneRows - 1 < w.pruneRows := by omega
    split
    · exact .of_lt ((settle_rows _).1.trans_lt hlt)
    · split
      · exact .of_lt ((settle_rows _).1.trans_lt ((coalesce_rows _ _ _).1.trans_lt hlt))
      · exact .of_lt ((settle_rows _).1.trans_lt ((coalesce_rows _ _ _).1.trans_lt hlt))

theorem classify_pays : Pays w (w.classify env b it).1 := by
  simp only [classify]
  split
  · exact blacklisted_pays
  split
  · exact .of_eq rfl rfl
  split
  · exact .of_eq rfl rfl
  split
  · exact .of_eq rfl rfl
  · exact offending_pays

theorem visit_pays : Pays w (w.visit env b it).1 := by
  have hcoalesce := w.coalesce_rows it it.elem.getDropped
  simp only [visit]
  split
  · exact .of_eq rfl rfl
  split
  · exact classify_pays
  split
  · exact .of_eq hcoalesce.1 hcoalesce.2
  · exact (Pays.of_eq hcoalesce.1 hcoalesce.2).trans classify_pays

theorem step_pays : Pays w (w.step env b it).1 := by
  rw [step]
  split
  · exact .of_eq rfl rfl
  split
  · exact .of_eq rfl rfl
  split
  · have hmark : Pays w { w with store := w.store.markLast b.region.id it } := .of_eq rfl rfl
    exact hmark.trans visit_pays
  · exact visit_pays

theorem run_pays (todo : List Node) (w : Sweep) : Pays w (run env b todo w) := by
  induction todo generalizing w with
  | nil => exact .of_eq rfl rfl
  | cons it rest ih =>
    rw [run]
    split
    · exact step_pays.trans (ih _)
    · exact step_pays

end Pays

end Sweep

/-! ### `prune` -/

namespace Store

variable {P : Node → Prop} {p : Region} {env : PruneEnv}

/-- The nodes of a loop that starts at an iterator. -/
theorem dropWhile_nodes (s : Store) (q : Node → Bool) :
    s.mLogElements = s.mLogElements.takeWhile q ++ s.mLogElements.dropWhile q :=
  (takeWhile_append_dropWhile ..).symm

theorem fromLast_nodes (s : Store) (id : LogId) :
    ∃ past, s.mLogElements = past ++ s.fromLast id := by
  cases hlast : s.mLast id with
  | none => exact ⟨[], by simp [fromLast, hlast]⟩
  | some ref => exact ⟨_, by
      simp only [fromLast, hlast]
      exact s.dropWhile_nodes _⟩

theorem batchStart_nodes (s : Store) (id : LogId) (o : Offender) (gc : Bool) :
    ∃ past, s.mLogElements = past ++ (s.batchStart id o gc).1 := by
  simp only [batchStart]
  generalize Option.or _ _ = found
  cases found with
  | none => exact s.fromLast_nodes id
  | some ref => exact ⟨_, s.dropWhile_nodes _⟩

/-- The whole list as a cursor. -/
def start (s : Store) : Cursor := ⟨s, [], s.mLogElements⟩

variable {s : Store}

theorem Valid.start_fits (h : s.Valid) : s.start.Fits := ⟨h, rfl⟩

/-- A batch that found the offender has used up a row. -/
theorem batch_pays (s : Store) (o : Offender) (busy : Bool) (pruneRows : Nat)
    (hkick : (s.batch env p o busy pruneRows).kick = true) :
    (s.batch env p o busy pruneRows).pruneRows < pruneRows :=
  ((Sweep.run_pays _ _).2 hkick).resolve_left Bool.false_ne_true

section
variable (env) (hP : ∀ n v, P n → P (Node.setDropped n v))
  (hperm : ∀ n : Node, n.elem.mLogId = p.id → p.blocks n.elem = false → P n)
include hP hperm

theorem batch_leads (hvalid : s.Valid) (o : Offender) (busy : Bool) (pruneRows : Nat) :
    Leads p.id P s.start (s.batch env p o busy pruneRows).store := by
  obtain ⟨past, hnodes⟩ := s.batchStart_nodes p.id o (gc pruneRows)
  refine .head (.restart s [] s.mLogElements past _ hnodes.symm) ?_
  exact Sweep.run_leads (b := s.batchOf p o pruneRows) env hP hperm _ (s.sweepOf o _ busy pruneRows)
    past ⟨hvalid, hnodes⟩ .empty

/-- With a row more than there are to prune, the first loop ends. -/
theorem pruneWorst_leads (fuel : Nat) (busy : Bool) (pruneRows : Nat) (hvalid : s.Valid)
    (hfuel : pruneRows < fuel) :
    ∃ r, pruneWorst env p fuel busy pruneRows s = some r ∧ Leads p.id P s.start r.2.2 := by
  induction fuel generalizing busy pruneRows s with
  | zero => omega
  | succ fuel ih =>
    have hrefl : Leads p.id P s.start s := .refl s [] s.mLogElements
    rw [pruneWorst]
    simp only
    split
    · exact ⟨_, rfl, hrefl⟩
    split
    · exact ⟨_, rfl, hrefl⟩
    have hbatch := batch_leads env hP hperm hvalid (s.findOffender env p.id) busy
      pruneRows
    split
    · exact ⟨_, rfl, hbatch⟩
    case isFalse hgo =>
      have hkick := (not_or.1 hgo).1
      have hlt := s.batch_pays (s.findOffender env p.id) busy pruneRows
        (Bool.eq_true_of_not_eq_false hkick)
      obtain ⟨r, hr, hleads⟩ := ih _ _ (hbatch.valid hvalid.start_fits)
        (hlt.trans_le (Nat.le_of_lt_succ hfuel))
      exact ⟨r, hr, hbatch.trans hvalid.start_fits (fun _ => rfl) hleads⟩

end

theorem expire_leads (hperm : ∀ n : Node, n.elem.mLogId = p.id → p.blocks n.elem = false → P n)
    (hvalid : s.Valid) (clearAll busy : Bool) (pruneRows : Nat) :
    Leads p.id P s.start (s.expire p clearAll busy pruneRows).2 := by
  obtain ⟨past, hnodes⟩ := s.fromLast_nodes p.id
  have hsecond : ∀ nice, Leads p.id P s.start
      (Expiry.run p nice (s.fromLast p.id) ⟨s, pruneRows, busy, false⟩).store := fun nice =>
    .head (.restart s [] s.mLogElements past _ hnodes.symm)
      (Expiry.run_leads hperm nice _ ⟨s, pruneRows, busy, false⟩ past)
  simp only [expire]
  specialize hsecond fun e => (s.mPrune.hasWhitelist p.id && !clearAll) && s.mPrune.nice e
  generalize Expiry.run p _ (s.fromLast p.id) _ = w at hsecond ⊢
  split
  · obtain ⟨past', hnodes'⟩ := w.store.fromLast_nodes p.id
    exact hsecond.trans hvalid.start_fits (fun _ => hnodes')
      (Expiry.run_leads hperm _ _ { w with whitelist := false } past')
  · exact hsecond

/-- More fuel changes nothing. -/
theorem pruneWorst_mono {fuel fuel' : Nat} (hle : fuel ≤ fuel') {busy : Bool} {pruneRows : Nat}
    {r : Bool × Nat × Store} (h : pruneWorst env p fuel busy pruneRows s = some r) :
    pruneWorst env p fuel' busy pruneRows s = some r := by
  induction fuel generalizing fuel' busy pruneRows s with
  | zero => cases h
  | succ fuel ih =>
    obtain ⟨fuel', rfl⟩ := Nat.exists_eq_add_of_lt (Nat.lt_of_succ_le hle)
    rw [pruneWorst] at h ⊢
    simp only at h ⊢
    split
    case isTrue hrows => simpa only [if_pos hrows] using h
    case isFalse hrows =>
      rw [if_neg hrows] at h
      split
      case isTrue hnone => simpa only [if_pos hnone] using h
      case isFalse hnone =>
        rw [if_neg hnone] at h
        split
        case isTrue hstop => simpa only [if_pos hstop] using h
        case isFalse hstop =>
          rw [if_neg hstop] at h
          exact ih (Nat.le_add_right _ _) h

end Store

end AndroidCore.Logd
