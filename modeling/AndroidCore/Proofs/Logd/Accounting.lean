import AndroidCore.Proofs.Logd.Frame

/-!
# `AndroidCore.Proofs.Logd.Accounting`: the statistics in every run

The counters of `LogStatistics` match the stored elements after every run in which no
message is empty. A message of length 0 breaks this. Its uid may lose its table entry while
it is still stored, since an entry that counts nothing is deleted. When the worst offender
is pruned, the message becomes a chatty element whose count is in no entry.

Whatever is squashed and pruned, an element keeps the sender and the time of its message
(`Buffer.run_origins`).
-/

namespace AndroidCore.Logd

/-- A stored element is counted. -/
theorem Store.Accounted.insert {s : Store} (h : s.Accounted) {e : LogBufferElement}
    (he : e.Sized) : (s.insert e).Accounted := by
  have hpos := s.position_eq e
  have helems : s.elems = (s.position e).1.map Node.elem ++ (s.position e).2.map Node.elem := by
    rw [← List.map_append, hpos, Store.elems]
  have hnew : (s.insert e).elems =
      (s.position e).1.map Node.elem ++ e :: (s.position e).2.map Node.elem := by
    simp [Store.elems, Store.insert]
  refine ⟨?_, ?_⟩
  · rw [hnew]
    exact (helems ▸ h.accounts).add
  · intro x hx
    have hcases : x = e ∨ x ∈ s.elems := by
      rw [helems]
      simp only [hnew, List.mem_append, List.mem_cons] at hx ⊢
      tauto
    rcases hcases with rfl | hold
    · exact he
    · exact h.sized x hold

/-- Storing and pruning keep the statistics right. -/
theorem Store.kept_accounted : Kept LogBufferElement.Sized fun s => s.Valid ∧ s.Accounted where
  setDropped _ _ hv _ := .inr hv
  setEventData _ _ h := h
  insert _ e he h := ⟨h.1.insert e, h.2.insert he⟩
  prune env _ id rows uid h := by
    obtain ⟨-, past, todo, hacts⟩ := prune_leads env h.1 id rows uid
    exact ⟨h.1.prune env id rows uid, Acts.accounts hacts h.1.start_fits h.2⟩
  fields _ _ _ _ h := ⟨h.1.congr rfl rfl rfl rfl rfl, h.2.accounts, h.2.sized⟩

/-- The call does not send an empty message. -/
def Op.NotEmpty : Op → Prop
  | .log _ _ m => m.len ≠ 0
  | _ => True

theorem Op.NotEmpty.sends {op : Op} (h : op.NotEmpty) : op.Sends LogBufferElement.Sized := by
  cases op with
  | log env penv m => exact fun _ _ => .inl h
  | prune | clear | readers | setSize | initPrune => trivial

/-- After every run without empty messages the statistics match the stored elements. -/
theorem Buffer.run_accounts (enable : Bool) (maxSize : LogId → Nat) (prune : PruneList)
    (ops : List Op) (hops : ∀ op ∈ ops, op.NotEmpty) :
    Accounts ((Buffer.new enable maxSize prune).run ops).store.stats
      ((Buffer.new enable maxSize prune).run ops).store.elems := by
  have hstart : (Store.new enable maxSize prune).Accounted :=
    ⟨Accounts.new enable, by intro e he; cases he⟩
  exact (Store.kept_accounted.run ops (fun op hop => (hops op hop).sends) (LogBuffer.all_new _)
    ⟨Store.valid_new enable maxSize prune, hstart⟩).2.accounts

/-- Messages of two uids, one of which has a large message and then an empty one. The last
message makes the log too large. -/
def emptyMessageOps : List Op :=
  [zeros 10 1 1 60000, zeros 11 2 2 100, zeros 11 3 3 100, zeros 11 4 4 100, zeros 10 5 5 0,
    zeros 11 6 6 6000]

/-- The empty message has become a chatty element that stands for one message, and the uid
has no table entry. -/
theorem Buffer.emptyMessage_not_accounted :
    ¬ Accounts (emptyBuffer.run emptyMessageOps).store.stats
      (emptyBuffer.run emptyMessageOps).store.elems := by
  intro h
  have hentry : ((emptyBuffer.run emptyMessageOps).store.stats.uidTable .main).counts 10
      = (0, 0) := by decide +kernel
  have hsum : (((emptyBuffer.run emptyMessageOps).store.elems.filter
      (LogBufferElement.ofUid .main 10)).map (·.getDropped.toNat)).sum = 1 := by decide +kernel
  have huid := h.uids .main (by decide) 10
  rw [hentry, Prod.mk.injEq] at huid
  have hzero : (((emptyBuffer.run emptyMessageOps).store.elems.filter
      (LogBufferElement.ofUid .main 10)).map (·.getDropped.toNat)).sum = 0 := huid.2.symm
  omega

/-- Without the empty message the run is accounted. -/
theorem Buffer.run_accounts_twoUids :
    Accounts (emptyBuffer.run [zeros 10 1 1 60000, zeros 11 2 2 6000]).store.stats
      (emptyBuffer.run [zeros 10 1 1 60000, zeros 11 2 2 6000]).store.elems := by
  refine run_accounts false (fun _ => 65536) noLists _ ?_
  intro op hop
  simp only [List.mem_cons, List.not_mem_nil, or_false] at hop
  rcases hop with rfl | rfl
  · show UInt16.ofNat 60000 ≠ 0
    decide
  · show UInt16.ofNat 6000 ≠ 0
    decide

/-! ### Where the elements come from -/

open List

/-- The log of a message, who sent it and when: what squashing and pruning leave as it is. -/
abbrev Origin := LogId × UInt32 × UInt32 × UInt32 × LogTime

def LogBufferElement.origin (e : LogBufferElement) : Origin :=
  (e.mLogId, e.mUid, e.mPid, e.mTid, e.mRealTime)

/-- The origin of the element that a call logs. A message that `log` refuses, with `-EINVAL` for
its log or `-EACCES` for its priority, has none. -/
def Op.origin? : Op → Option Origin
  | .log env _ m => (m.acceptedBy env).map fun id =>
      (id, m.uid, m.pid, m.tid, Message.slipTime m.realtime)
  | _ => none

/-- Storing and pruning invent no element. -/
theorem Store.kept_origin (P : Origin → Prop) :
    Kept (fun e => P e.origin) fun s => s.Valid ∧ ∀ n ∈ s.mLogElements, P n.elem.origin where
  setDropped _ _ _ h := h
  setEventData _ _ h := h
  insert s e he h := by
    refine ⟨h.1.insert e, ?_⟩
    intro n hn
    have hnodes := s.position_eq e
    rcases mem_append.mp hn with hn | hn
    · exact h.2 n (hnodes ▸ mem_append_left _ hn)
    · rcases mem_cons.mp hn with rfl | hn
      · exact he
      · exact h.2 n (hnodes ▸ mem_append_right _ hn)
  prune env s id rows uid h := by
    obtain ⟨-, past, todo, hacts⟩ := prune_leads env h.1 id rows uid
    have hthin := Acts.thinned hacts
    rw [← (Acts.fits hacts h.1.start_fits).nodes] at hthin
    refine ⟨h.1.prune env id rows uid, ?_⟩
    intro n hn
    have hkey : ∀ x y, Chatty (s.Prunable id uid) x y → y.elem.origin = x.elem.origin := by
      rintro x y ⟨-, v, rfl⟩
      rfl
    obtain ⟨m, hm, horigin⟩ := mem_map.mp (hthin.key_mem hkey hn)
    exact horigin ▸ h.2 m hm
  fields _ _ _ _ h := ⟨h.1.congr rfl rfl rfl rfl rfl, h.2⟩

/-- After every sequence of calls, each stored element has the log, the uid, the pid, the tid and
the time of a message that was accepted. -/
theorem Buffer.run_origins (enable : Bool) (maxSize : LogId → Nat) (prune : PruneList)
    (ops : List Op) :
    (((Buffer.new enable maxSize prune).run ops).store.mLogElements.map fun n => n.elem.origin) ⊆
      ops.filterMap Op.origin? := by
  have hsends : ∀ op ∈ ops, op.Sends fun e => e.origin ∈ ops.filterMap Op.origin? := by
    intro op hop
    cases op with
    | log env penv m =>
      intro id hid
      exact mem_filterMap.mpr ⟨_, hop, Option.map_eq_some_iff.mpr ⟨id, hid, rfl⟩⟩
    | prune | clear | readers | setSize | initPrune => trivial
  have hnew : (Buffer.new enable maxSize prune).store.mLogElements = [] := rfl
  exact fun _ => forall_mem_map.mpr ((Store.kept_origin _).run ops hsends (LogBuffer.all_new _)
    ⟨Store.valid_new enable maxSize prune, by simp [hnew]⟩).2 _

end AndroidCore.Logd
