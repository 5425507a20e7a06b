import AndroidCore.Proofs.Logd.Prune

/-!
# `AndroidCore.Proofs.Logd.Frame`: what `prune` leaves alone

`prune` ends, for any buffer, readers, lists, rows and caller. It touches only nodes that
are `Prunable`: of the log it was called for, of the caller if that is not root, and before
the watermark of the oldest reader. The nodes that are left keep their order.

`Kept` packs what has to be shown of a property of the store for it to hold in every run.
-/

namespace AndroidCore.Logd

open List Option

/-! ### The oldest reader -/

namespace LogTime

variable {t u v : LogTime}

theorem lt_iff : t < u ↔ t.tvSec.toNat < u.tvSec.toNat ∨
    (t.tvSec.toNat = u.tvSec.toNat ∧ t.tvNsec.toNat < u.tvNsec.toNat) := by
  show (t.tvSec < u.tvSec ∨ (t.tvSec = u.tvSec ∧ t.tvNsec < u.tvNsec)) ↔ _
  rw [UInt32.lt_iff_toNat_lt, UInt32.lt_iff_toNat_lt, UInt32.toNat_inj]

theorem le_iff : t ≤ u ↔ ¬ u < t := Iff.rfl

theorem le_refl (t : LogTime) : t ≤ t := by
  rw [le_iff, lt_iff]
  omega

theorem le_of_lt (h : t < u) : t ≤ u := by
  rw [lt_iff] at h
  rw [le_iff, lt_iff]
  omega

theorem le_trans (h : t ≤ u) (h' : u ≤ v) : t ≤ v := by
  rw [le_iff, lt_iff] at h h' ⊢
  omega

theorem le_antisymm (h : t ≤ u) (h' : u ≤ t) : t = u := by
  rw [le_iff, lt_iff] at h h'
  have hsec : t.tvSec.toNat = u.tvSec.toNat := by omega
  have hnsec : t.tvNsec.toNat = u.tvNsec.toNat := by omega
  cases t
  rw [UInt32.toNat_inj] at hsec hnsec
  cases hsec
  cases hnsec
  rfl

end LogTime

/-- If a reader holds the log, then the loop finds one that starts first. -/
theorem oldestReader_some (id : LogId) (times : List LogTimeEntry) (index : Nat)
    (oldest : Option (Nat × LogTimeEntry))
    (h : oldest ≠ none ∨ ∃ entry ∈ times, entry.holds id = true) :
    ∃ r, oldestReader id times index oldest = some r ∧
      (oldest = some r ∨ (r.2 ∈ times ∧ r.2.holds id = true)) ∧
      (∀ o, oldest = some o → r.2.mStart ≤ o.2.mStart) ∧
      ∀ entry ∈ times, entry.holds id = true → r.2.mStart ≤ entry.mStart := by
  induction times generalizing index oldest with
  | nil =>
    cases oldest with
    | none => simp at h
    | some o =>
      refine ⟨o, rfl, .inl rfl, ?_, by simp⟩
      intro o' ho'
      cases ho'
      exact LogTime.le_refl _
  | cons entry rest ih =>
    rw [oldestReader]
    split
    case isTrue htake =>
      rw [Bool.and_eq_true] at htake
      obtain ⟨r, hr, hfrom, hle, hrest⟩ := ih (index + 1) (some (index, entry)) (.inl (by simp))
      have hentry : r.2.mStart ≤ entry.mStart := hle _ rfl
      refine ⟨r, hr, .inr ?_, ?_, ?_⟩
      · rcases hfrom with hfrom | hfrom
        · cases hfrom
          exact ⟨mem_cons_self .., htake.1⟩
        · exact ⟨mem_cons_of_mem _ hfrom.1, hfrom.2⟩
      · -- the reader that was the oldest starts no earlier than `entry`
        rintro o rfl
        refine LogTime.le_trans hentry ?_
        have hearlier := htake.2
        simp only [all_some, Bool.or_eq_true, Bool.and_eq_true, decide_eq_true_eq] at hearlier
        rcases hearlier with hlt | ⟨heq, -⟩
        · exact LogTime.le_of_lt hlt
        · rw [heq]
          exact LogTime.le_refl _
      · intro e he hholds
        rcases mem_cons.1 he with rfl | he
        · exact hentry
        · exact hrest e he hholds
    case isFalse hkeep =>
      by_cases hholds : entry.holds id = true
      · -- `entry` does not start before the oldest
        cases oldest with
        | none => simp [hholds] at hkeep
        | some o =>
          obtain ⟨r, hr, hfrom, hle, hrest⟩ := ih (index + 1) (some o) (.inl (by simp))
          refine ⟨r, hr, hfrom.imp_right fun h => ⟨mem_cons_of_mem _ h.1, h.2⟩, hle, ?_⟩
          have hlater : o.2.mStart ≤ entry.mStart := by
            refine LogTime.le_iff.2 fun hlt => hkeep ?_
            simp [hholds, hlt]
          intro e he hholds'
          rcases mem_cons.1 he with rfl | he
          · exact LogTime.le_trans (hle o rfl) hlater
          · exact hrest e he hholds'
      · have hsome : oldest ≠ none ∨ ∃ e ∈ rest, e.holds id = true := by
          refine h.imp_right ?_
          rintro ⟨e, he, heholds⟩
          rcases mem_cons.1 he with rfl | he
          · exact absurd heholds hholds
          · exact ⟨e, he, heholds⟩
        obtain ⟨r, hr, hfrom, hle, hrest⟩ := ih (index + 1) oldest hsome
        refine ⟨r, hr, hfrom.imp_right fun h => ⟨mem_cons_of_mem _ h.1, h.2⟩, hle, ?_⟩
        intro e he heholds
        rcases mem_cons.1 he with rfl | he
        · exact absurd heholds hholds
        · exact hrest e he heholds

namespace Store

/-- What `prune` may touch: a node of the log, of the caller if it is not root, and older
than the watermark of the oldest reader of the log. -/
def Prunable (s : Store) (id : LogId) (callerUid : UInt32) (n : Node) : Prop :=
  n.elem.mLogId = id ∧ (callerUid ≠ aidRoot → n.elem.mUid = callerUid) ∧
    ∀ reader ∈ s.mTimes, reader.holds id = true →
      (∀ other ∈ s.mTimes, other.holds id = true → reader.mStart ≤ other.mStart) →
      n.elem.mRealTime < reader.mStart - pruneMargin

variable {s : Store}

theorem Prunable.setDropped {id : LogId} {callerUid : UInt32} {n : Node}
    (h : s.Prunable id callerUid n) (v : UInt16) : s.Prunable id callerUid (n.setDropped v) := h

/-- A node that the watermark does not block is old enough. -/
theorem lt_of_not_blocks {id : LogId} {e : LogBufferElement} (h : (s.region id).blocks e = false)
    {reader : LogTimeEntry} (hmem : reader ∈ s.mTimes) (hholds : reader.holds id = true)
    (hfirst : ∀ other ∈ s.mTimes, other.holds id = true → reader.mStart ≤ other.mStart) :
    e.mRealTime < reader.mStart - pruneMargin := by
  obtain ⟨r, hr, hfrom, -, hleast⟩ := oldestReader_some id s.mTimes 0 none
    (.inr ⟨reader, hmem, hholds⟩)
  have hr' : r.2 ∈ s.mTimes ∧ r.2.holds id = true := hfrom.resolve_left (by simp)
  have hstart : r.2.mStart = reader.mStart :=
    LogTime.le_antisymm (hleast reader hmem hholds) (hfirst r.2 hr'.1 hr'.2)
  simp only [Region.blocks, region, hr, map_some, any_some, hstart, decide_eq_false_iff_not] at h
  exact Decidable.not_not.1 h

/-- The loops of `prune` touch only what is prunable, and `prune` ends. -/
theorem prune_leads (env : PruneEnv) (hvalid : s.Valid) (id : LogId) (pruneRows : Nat)
    (callerUid : UInt32) :
    (∀ fuel, pruneRows < fuel → pruneFuel env fuel s id pruneRows callerUid =
      some (s.prune env id pruneRows callerUid)) ∧
    Leads id (s.Prunable id callerUid) s.start (s.prune env id pruneRows callerUid).2 := by
  simp only [prune, pruneFuel]
  by_cases hroot : callerUid = aidRoot
  case neg =>
    simp only [ne_eq, hroot, not_false_eq_true, ↓reduceIte, getD_some]
    refine ⟨fun _ _ => trivial, ?_⟩
    obtain ⟨past, hnodes⟩ := s.fromLast_nodes id
    refine .head (.restart s [] s.mLogElements past _ hnodes.symm) ?_
    exact pruneUid_leads (p := s.region id)
      (fun n hid huid hblocks => ⟨hid, fun _ => huid, fun _ => lt_of_not_blocks hblocks⟩) _ _ s past
  case pos =>
    subst hroot
    have hperm : ∀ n : Node, n.elem.mLogId = (s.region id).id →
        (s.region id).blocks n.elem = false → s.Prunable id aidRoot n := fun n hid hblocks =>
      ⟨hid, fun hne => absurd rfl hne, fun _ => lt_of_not_blocks hblocks⟩
    simp only [ne_eq, not_true_eq_false, ↓reduceIte]
    split
    · refine ⟨fun _ _ => rfl, ?_⟩
      exact expire_leads hperm hvalid true false pruneRows
    · obtain ⟨r, hr, hleads⟩ := pruneWorst_leads env (fun _ v hn => hn.setDropped v) hperm
        (pruneRows + 1) false pruneRows hvalid (Nat.lt_succ_self _)
      simp only [hr]
      refine ⟨fun fuel hfuel => ?_, ?_⟩
      · rw [pruneWorst_mono hfuel hr]
        rfl
      · exact hleads.trans hvalid.start_fits (fun _ => rfl)
          (expire_leads hperm (hleads.valid hvalid.start_fits) false r.1 r.2.1)

theorem Valid.prune (h : s.Valid) (env : PruneEnv) (id : LogId) (pruneRows : Nat)
    (callerUid : UInt32) : (s.prune env id pruneRows callerUid).2.Valid :=
  (prune_leads env h id pruneRows callerUid).2.valid h.start_fits

end Store

/-! ### Whole runs -/

/-- What the two slots and the elements handed on have in common. -/
structure LogBuffer.All (E : LogBufferElement → Prop) (buf : LogBuffer) : Prop where
  last : ∀ id e, buf.lastLoggedElements id = some e → E e
  dropped : ∀ id e, buf.droppedElements id = some e → E e
  logged : ∀ e ∈ buf.logged, E e

/-- A property of elements that squashing keeps, and a property of stores that storing such
elements and pruning keep. -/
structure Kept (E : LogBufferElement → Prop) (Q : Store → Prop) : Prop where
  setDropped : ∀ e v, v ≠ 0 → E e → E (e.setDropped v)
  setEventData : ∀ e d, E e → E (LogBuffer.setEventData e d)
  insert : ∀ s e, E e → Q s → Q (s.insert e)
  prune : ∀ env s id rows uid, Q s → Q (Store.prune env s id rows uid).2
  fields : ∀ s times maxSize list, Q s →
    Q { s with mTimes := times, mMaxSize := maxSize, mPrune := list }

/-- The log that a message goes to: its number is one of a log, and its priority passes there. -/
def Message.acceptedBy (env : Env) (m : Message) : Option LogId :=
  (LogId.ofInt? m.logId).filter fun id => m.loggable env id

/-- `log` returns an error for all other messages. -/
theorem Message.isSome_acceptedBy_iff (env : Env) (buf : LogBuffer) (m : Message) :
    (m.acceptedBy env).isSome ↔ 0 ≤ (buf.log env m).1 := by
  unfold acceptedBy LogBuffer.log
  cases LogId.ofInt? m.logId with
  | none => simp [eInval]
  | some id => cases hloggable : m.loggable env id <;> simp [hloggable, eAcces]

/-- The messages that the call logs have the property. -/
def Op.Sends (E : LogBufferElement → Prop) : Op → Prop
  | .log env _ m => ∀ id ∈ m.acceptedBy env, E (m.elem id)
  | _ => True

namespace Kept

variable {E : LogBufferElement → Prop} {Q : Store → Prop}

section Slots

variable {buf : LogBuffer} {id : LogId} {elem currentLast : LogBufferElement}

theorem setSlot_some {slots : LogId → Option LogBufferElement}
    (h : ∀ i e, slots i = some e → E e) {new : Option LogBufferElement}
    (hnew : ∀ e, new = some e → E e) {i : LogId} {e : LogBufferElement}
    (he : LogBuffer.setSlot slots id new i = some e) : E e := by
  rw [LogBuffer.setSlot] at he
  split at he
  · exact hnew e he
  · exact h i e he

theorem logElement (h : buf.All E) (he : E elem) : (buf.logElement elem).All E :=
  { h with logged := forall_mem_append.mpr ⟨h.logged, forall_mem_singleton.mpr he⟩ }

theorem flush (h : buf.All E) (hlast : E currentLast) : (buf.flush id currentLast).All E := by
  rw [LogBuffer.flush]
  split
  · exact h
  case h_2 dropped hdropped =>
    have hbuf : LogBuffer.All E
        (if dropped.getDropped ≠ 0 then buf.logElement dropped else buf) := by
      split
      · exact logElement h (h.dropped id dropped hdropped)
      · exact h
    exact logElement { hbuf with
      dropped := fun _ _ => setSlot_some hbuf.dropped fun e heq => by cases heq } hlast

variable (hk : Kept E Q)
include hk

section
variable (h : buf.All E) (he : E elem) (hlast : E currentLast)
include h he hlast

theorem holdBack (count : UInt16) : (buf.holdBack id elem currentLast count).All E where
  last := fun _ _ => setSlot_some h.last fun e heq => some.inj heq ▸ he
  dropped := fun _ _ => setSlot_some h.dropped fun e heq => by
    rw [← some.inj heq]
    split
    case isTrue hcount => exact hk.setDropped _ _ hcount hlast
    case isFalse => exact hlast
  logged := h.logged

theorem sumLiblog : (buf.sumLiblog elem currentLast).All E := by
  simp only [LogBuffer.sumLiblog]
  split
  · exact logElement { h with
      last := fun _ _ => setSlot_some h.last fun e heq => some.inj heq ▸ he } hlast
  · exact { h with
      last := fun _ _ => setSlot_some h.last fun e heq =>
        some.inj heq ▸ hk.setEventData elem _ he }

theorem logSame (m : MatchType) : (buf.logSame id elem currentLast m).All E := by
  rw [LogBuffer.logSame]
  split
  · exact hk.holdBack h he hlast 0
  case h_2 dropped hdropped =>
    simp only
    split
    · exact hk.sumLiblog h he hlast
    split
    · exact hk.holdBack (logElement h (h.dropped id dropped hdropped)) he hlast 1
    · exact hk.holdBack h he hlast _

end

theorem squash (env : Env) (h : buf.All E) (he : E elem) : (buf.squash env id elem).All E := by
  have hnew : ∀ buf : LogBuffer, buf.All E → (buf.logNew id elem).All E := fun buf h =>
    logElement { h with
      last := fun _ _ => setSlot_some h.last fun e heq => some.inj heq ▸ he } he
  rw [LogBuffer.squash]
  split
  · exact hnew buf h
  case h_2 currentLast hlast =>
    simp only
    split
    · exact hk.logSame h he (h.last id currentLast hlast) _
    · exact hnew _ (flush h (h.last id currentLast hlast))

/-- A message that is refused changes nothing. -/
theorem log_all (env : Env) (h : buf.All E) {m : Message}
    (hm : ∀ id ∈ m.acceptedBy env, E (m.elem id)) : (buf.log env m).2.All E := by
  rw [LogBuffer.log]
  split
  · exact h
  case h_2 id hid =>
    split
    · exact h
    case isFalse hloggable =>
      exact hk.squash env h (hm id (by simp [Message.acceptedBy, hid, hloggable]))

end Slots

variable {s : Store} (hk : Kept E Q)
include hk

theorem store_log (env : PruneEnv) (hs : Q s) {e : LogBufferElement} (he : E e) :
    Q (s.log env e) := by
  have hinsert := hk.insert s e he hs
  rw [Store.log, Store.maybePrune]
  split
  · exact hk.prune _ _ _ _ _ hinsert
  · exact hinsert

theorem store_logs (env : PruneEnv) (es : List LogBufferElement)
    (hes : ∀ e ∈ es, E e) (hs : Q s) : Q (es.foldl (Store.log env) s) := by
  induction es generalizing s with
  | nil => exact hs
  | cons e es ih =>
    exact ih (fun e' he' => hes e' (mem_cons_of_mem _ he'))
      (hk.store_log env hs (hes e (mem_cons_self ..)))

theorem clear (env : PruneEnv) (wake : Nat → List LogTimeEntry) (id : LogId)
    (uid : UInt32) (retry : Nat) (hs : Q s) : Q (s.clear env wake id uid retry).2 := by
  induction retry generalizing s with
  | zero => exact hs
  | succ retry ih =>
    have hpass : Q (if retry = 0 then s.lastPass env id uid else s) := by
      split
      · have hprune := hk.prune env s id 1 uid hs
        simp only [Store.lastPass]
        split
        · exact hk.fields _ _ _ _ hprune
        · exact hprune
      · exact hs
    rw [Store.clear]
    generalize (if retry = 0 then s.lastPass env id uid else s) = t at hpass ⊢
    have hprune := hk.prune env t id ulongMax uid hpass
    split
    · exact hprune
    · exact ih (hk.fields _ _ _ _ hprune)

/-- One call keeps both properties. -/
theorem step {b : Buffer} (hslots : b.slots.All E) (hstore : Q b.store) {op : Op}
    (hop : op.Sends E) : (b.step op).slots.All E ∧ Q (b.step op).store := by
  cases op with
  | log env penv m =>
    have hall := hk.log_all env hslots hop
    exact ⟨hall, hk.store_logs penv _ (fun e he => hall.logged e (mem_of_mem_drop he)) hstore⟩
  | prune penv id rows uid => exact ⟨hslots, hk.prune _ _ _ _ _ hstore⟩
  | clear penv wake id uid => exact ⟨hslots, hk.clear penv wake id uid 4 hstore⟩
  | readers times | setSize id size | initPrune list => exact ⟨hslots, hk.fields _ _ _ _ hstore⟩

/-- A run keeps both properties. -/
theorem run (ops : List Op) (hops : ∀ op ∈ ops, op.Sends E) {b : Buffer}
    (hslots : b.slots.All E) (hstore : Q b.store) : Q (b.run ops).store := by
  induction ops generalizing b with
  | nil => exact hstore
  | cons op ops ih =>
    have hstep := hk.step hslots hstore (hops op (mem_cons_self ..))
    exact ih (fun op' hop' => hops op' (mem_cons_of_mem _ hop')) hstep.1 hstep.2

end Kept

theorem LogBuffer.all_new (E : LogBufferElement → Prop) : LogBuffer.new.All E where
  last := by intro id e h; cases h
  dropped := by intro id e h; cases h
  logged := by intro e h; cases h

/-- Storing and pruning keep the iterators valid. -/
theorem Store.kept_valid : Kept (fun _ => True) Store.Valid where
  setDropped _ _ _ _ := trivial
  setEventData _ _ _ := trivial
  insert _ e _ h := h.insert e
  prune env _ id rows uid h := h.prune env id rows uid
  fields _ _ _ _ h := h.congr rfl rfl rfl rfl rfl

/-- In every run the iterators are valid. -/
theorem Buffer.run_valid (enable : Bool) (maxSize : LogId → Nat) (prune : PruneList)
    (ops : List Op) : ((Buffer.new enable maxSize prune).run ops).store.Valid := by
  refine Store.kept_valid.run ops ?_ (LogBuffer.all_new _) (Store.valid_new enable maxSize prune)
  intro op _
  cases op with
  | log env penv m => exact fun _ _ => trivial
  | prune | clear | readers | setSize | initPrune => trivial

/-- After every sequence of calls, each position that is remembered is one of an element in the
list, and the one of an offender is of its log and its tag or uid. -/
theorem Buffer.run_positions (enable : Bool) (maxSize : LogId → Nat) (prune : PruneList)
    (ops : List Op) :
    let s := ((Buffer.new enable maxSize prune).run ops).store
    (∀ id ref, s.mLast id = some ref → ∃ n ∈ s.mLogElements, n.ref = ref) ∧
    (∀ id pid ref, s.mLastWorstPidOfSystem id pid = some ref →
      ∃ n ∈ s.mLogElements, n.ref = ref) ∧
    ∀ id k ref, s.mLastWorst id k = some ref → ∃ n ∈ s.mLogElements, n.ref = ref ∧
      n.elem.mLogId = id ∧ k = if n.elem.isBinary then n.elem.getTag else n.elem.mUid := by
  have h := Buffer.run_valid enable maxSize prune ops
  refine ⟨h.last, fun id pid ref hpid => ?_, fun id k ref hworst => ?_⟩
  · obtain ⟨n, hn, href, -⟩ := h.worstPid id pid ref hpid
    exact ⟨n, hn, href⟩
  · obtain ⟨n, hn, href, hid, hkey⟩ := h.worst id k ref hworst
    exact ⟨n, hn, href, hid, hkey.symm⟩

/-! ### The frame of `prune` -/

/-- `prune` ends with the same result for any fuel above the rows it is to prune. The nodes
that are left are in their old order. A node that is gone was prunable, and one that is left
is as it was or was prunable and is chatty now. The iterators are valid again. -/
theorem Store.prune_frame (env : PruneEnv) {s : Store} (hvalid : s.Valid) (id : LogId)
    (pruneRows : Nat) (callerUid : UInt32) :
    (∀ fuel, pruneRows < fuel → pruneFuel env fuel s id pruneRows callerUid =
      some (s.prune env id pruneRows callerUid)) ∧
    ((s.prune env id pruneRows callerUid).2.mLogElements.map Node.ref).Sublist
      (s.mLogElements.map Node.ref) ∧
    (∀ n ∈ s.mLogElements,
      (∀ m ∈ (s.prune env id pruneRows callerUid).2.mLogElements, m.ref ≠ n.ref) →
      s.Prunable id callerUid n) ∧
    (∀ n ∈ s.mLogElements, ∀ m ∈ (s.prune env id pruneRows callerUid).2.mLogElements,
      m.ref = n.ref → m = n ∨ (s.Prunable id callerUid n ∧ ∃ v, m = n.setDropped v)) ∧
    (s.prune env id pruneRows callerUid).2.Valid := by
  obtain ⟨hends, past, todo, hacts⟩ := prune_leads env hvalid id pruneRows callerUid
  have hfits := Acts.fits hacts hvalid.start_fits
  have hthin := Acts.thinned hacts
  rw [← hfits.nodes] at hthin
  have href : ∀ n m, Chatty (s.Prunable id callerUid) n m → m.ref = n.ref := fun _ _ h => h.ref_eq
  refine ⟨hends, hthin.keys_sublist href, ?_, ?_, hfits.valid⟩
  · intro n hn hgone
    exact hthin.of_gone href hn hgone
  · intro n hn m hm hsame
    exact hthin.of_left href hvalid.nodup hn hm hsame

/-! ### A buffer with a reader -/

/-- Every message is loggable. -/
def quietEnv : Env where
  isLoggable := fun _ _ => true
  tagToName := fun _ => []
  behind := fun _ _ => 0

/-- Tables are walked in the order of their list. -/
def plainEnv : PruneEnv where
  order := fun entries => entries
  freed := fun _ => 0

/-- Nothing is listed, and the worst uid and pid are looked for. -/
def noLists : PruneList where
  mNaughty := []
  mNice := []
  mWorstUidEnabled := true
  mWorstPidOfSystemEnabled := true

/-- A message of `len` zeros to the main log. -/
def zeros (uid tid sec : UInt32) (len : Nat) : Op :=
  .log quietEnv plainEnv
    { logId := 0
      realtime := ⟨sec, 1⟩
      uid := uid
      pid := 1
      tid := tid
      msg := List.replicate len 0
      len := UInt16.ofNat len }

/-- A reader of the main log that starts at `sec`. -/
def readerAt (sec : UInt32) : LogTimeEntry where
  mRefCount := 1
  mLogMask := 1
  mStart := ⟨sec, 0⟩
  mTimeout := ⟨0, 0⟩
  mNonBlock := true
  mEnd := ⟨0, 0⟩
  mRelease := false
  skipAhead := fun _ => 0

/-- An empty buffer of the smallest size. -/
def emptyBuffer : Buffer := .new false (fun _ => 65536) noLists

/-- Two messages, and a reader between them. -/
def readBuffer : Buffer := emptyBuffer.run [zeros 10 1 1 5, zeros 10 2 20 5, .readers [readerAt 10]]

/-- The first of the two messages goes, and the second one is not to be touched. -/
theorem Store.prune_frame_readBuffer :
    ((readBuffer.store.prune plainEnv .main 4 aidRoot).2.mLogElements.map Node.ref) = [1] ∧
    ∀ n ∈ readBuffer.store.mLogElements,
      (∀ m ∈ (readBuffer.store.prune plainEnv .main 4 aidRoot).2.mLogElements, m.ref ≠ n.ref) →
      readBuffer.store.Prunable .main aidRoot n :=
  ⟨by decide +kernel,
    (prune_frame plainEnv (Buffer.run_valid _ _ _ _) .main 4 aidRoot).2.2.1⟩

end AndroidCore.Logd
