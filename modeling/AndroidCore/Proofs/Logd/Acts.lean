import AndroidCore.Proofs.Logd.LogElements

/-!
# `AndroidCore.Proofs.Logd.Acts`: what pruning may do

`Act id P` is all that a loop of `prune` for the log `id` does at the node it stands on:
it goes on, remembers the node, erases it, lets a chatty node before it take it in, or
makes it chatty. `P` holds of each node that an act erases or changes.

The invariants are proved here, once for each act. Along `Acts` the iterators stay valid
(`Acts.fits`), the list loses and changes only nodes with `P` (`Acts.thinned`), and the
statistics match the list when no element is empty (`Acts.accounts`). `Proofs.Logd.Prune`
shows that the loops of `prune` are made of acts.
-/

namespace AndroidCore.Logd

open Lib List

/-- Where a loop stands: the nodes it has passed and the ones from its iterator on. -/
structure Cursor where
  store : Store
  past : List Node
  todo : List Node

/-- The nodes of the cursor are the list, whose iterators are valid. -/
structure Cursor.Fits (c : Cursor) : Prop where
  valid : c.store.Valid
  nodes : c.store.mLogElements = c.past ++ c.todo

/-- What a loop does at the node it stands on. -/
inductive Act (id : LogId) (P : Node → Prop) : Cursor → Cursor → Prop
  | skip (s : Store) (past : List Node) (it : Node) (rest : List Node) :
      Act id P ⟨s, past, it :: rest⟩ ⟨s, past ++ [it], rest⟩
  | mark (s : Store) (past : List Node) (it : Node) (rest : List Node) :
      Act id P ⟨s, past, it :: rest⟩ ⟨s.markLast id it, past, it :: rest⟩
  | erase (s : Store) (past : List Node) (it : Node) (rest : List Node) :
      P it → Act id P ⟨s, past, it :: rest⟩ ⟨s.erase it false, past, rest⟩
  | merge (s : Store) (us : List Node) (found : Node) (vs : List Node) (it : Node)
      (rest : List Node) :
      P found → P it → it.elem.mLogId = found.elem.mLogId → it.elem.mUid = found.elem.mUid →
      found.elem.getDropped ≠ 0 → it.elem.getDropped ≠ 0 →
      it.elem.getDropped.toNat + found.elem.getDropped.toNat ≤ 65535 →
      Act id P ⟨s, us ++ found :: vs, it :: rest⟩
        ⟨(s.setDropped found.ref (it.elem.getDropped + found.elem.getDropped)).erase it true,
          us ++ found.setDropped (it.elem.getDropped + found.elem.getDropped) :: vs, rest⟩
  | drop (s : Store) (past : List Node) (it : Node) (rest : List Node) :
      P it → it.elem.getDropped = 0 →
      Act id P ⟨s, past, it :: rest⟩
        ⟨{ s with stats := s.stats.drop it.elem }.setDropped it.ref 1, past,
          it.setDropped 1 :: rest⟩
  | worst (s : Store) (past : List Node) (it : Node) (rest : List Node) :
      it.elem.mLogId = id →
      Act id P ⟨s, past, it :: rest⟩ ⟨s.setLastWorst id it.elem.key it, past, it :: rest⟩
  | worstPid (s : Store) (past : List Node) (it : Node) (rest : List Node) :
      it.elem.mLogId = id →
      Act id P ⟨s, past, it :: rest⟩ ⟨s.setLastWorstPid id it.elem.mPid it, past, it :: rest⟩
  | readers (s : Store) (past todo : List Node) (times : List LogTimeEntry) :
      Act id P ⟨s, past, todo⟩ ⟨{ s with mTimes := times }, past, todo⟩
  | restart (s : Store) (past todo past' todo' : List Node) :
      past' ++ todo' = past ++ todo → Act id P ⟨s, past, todo⟩ ⟨s, past', todo'⟩

/-- A loop, or several of them. -/
abbrev Acts (id : LogId) (P : Node → Prop) : Cursor → Cursor → Prop :=
  Relation.ReflTransGen (Act id P)

variable {id : LogId} {P : Node → Prop} {c c' : Cursor}

/-! ### Iterators stay valid -/

theorem Act.fits (h : Act id P c c') (hc : c.Fits) : c'.Fits := by
  cases h with
  | skip s past it rest => exact ⟨hc.valid, by simpa using hc.nodes⟩
  | mark s past it rest =>
    have hmem : it ∈ s.mLogElements := by
      rw [hc.nodes]
      simp
    exact ⟨hc.valid.markLast hmem id, (s.markLast_mLogElements id it).trans hc.nodes⟩
  | erase s past it rest =>
    exact ⟨hc.valid.erase hc.nodes false, hc.valid.erase_mLogElements hc.nodes false⟩
  | merge s us found vs it rest =>
    -- the nodes around the one found, and then around the one that goes
    have hfound : s.mLogElements = us ++ found :: (vs ++ it :: rest) := by
      simpa using hc.nodes
    have hvalid := hc.valid.setDropped hfound
      (it.elem.getDropped + found.elem.getDropped)
    have hnodes := hc.valid.setDropped_mLogElements hfound
      (it.elem.getDropped + found.elem.getDropped)
    have hit := hnodes.trans (show _ =
      (us ++ found.setDropped (it.elem.getDropped + found.elem.getDropped) :: vs) ++ it :: rest
      by simp)
    exact ⟨hvalid.erase hit true, hvalid.erase_mLogElements hit true⟩
  | drop s past it rest =>
    have hvalid : Store.Valid { s with stats := s.stats.drop it.elem } :=
      hc.valid.congr rfl rfl rfl rfl rfl
    exact ⟨hvalid.setDropped hc.nodes 1, hvalid.setDropped_mLogElements hc.nodes 1⟩
  | worst s past it rest hid =>
    have hmem : it ∈ s.mLogElements := by
      rw [hc.nodes]
      simp
    exact ⟨hc.valid.setLastWorst hmem hid rfl, hc.nodes⟩
  | worstPid s past it rest hid =>
    have hmem : it ∈ s.mLogElements := by
      rw [hc.nodes]
      simp
    exact ⟨hc.valid.setLastWorstPid hmem hid rfl, hc.nodes⟩
  | readers s past todo times => exact ⟨hc.valid.congr rfl rfl rfl rfl rfl, hc.nodes⟩
  | restart s past todo past' todo' hsame => exact ⟨hc.valid, hc.nodes.trans hsame.symm⟩

theorem Acts.fits (h : Acts id P c c') (hc : c.Fits) : c'.Fits := by
  induction h with
  | refl => exact hc
  | tail _ hact ih => exact hact.fits ih

/-! ### What is lost has `P` -/

/-- A node with `P` becomes chatty, or its count changes. -/
def Chatty (P : Node → Prop) (n m : Node) : Prop := P n ∧ ∃ v, m = n.setDropped v

theorem Chatty.ref_eq {n m : Node} (h : Chatty P n m) : m.ref = n.ref := by
  obtain ⟨-, v, rfl⟩ := h
  rfl

theorem Chatty.trans {n m k : Node} (h : Chatty P n m) (h' : Chatty P m k) : Chatty P n k := by
  obtain ⟨hp, v, rfl⟩ := h
  obtain ⟨-, w, rfl⟩ := h'
  refine ⟨hp, w, ?_⟩
  simp [Node.setDropped, LogBufferElement.setDropped_setDropped]

theorem Act.thinned (h : Act id P c c') :
    Thinned P (Chatty P) (c.past ++ c.todo) (c'.past ++ c'.todo) := by
  cases h with
  | skip s past it rest =>
    simp only [append_assoc]
    exact .refl _
  | mark => exact .refl _
  | erase s past it rest hp => exact .erase hp past rest
  | merge s us found vs it rest hfound hit =>
    simp only [append_assoc]
    exact (Thinned.refl us).append (.turn ⟨hfound, _, rfl⟩ (.erase hit vs rest))
  | drop s past it rest hp => exact .replace ⟨hp, 1, rfl⟩ past rest
  | worst | worstPid | readers => exact .refl _
  | restart s past todo past' todo' hsame =>
    simp only [hsame]
    exact .refl _

theorem Acts.thinned (h : Acts id P c c') :
    Thinned P (Chatty P) (c.past ++ c.todo) (c'.past ++ c'.todo) := by
  induction h with
  | refl => exact .refl _
  | tail _ hact ih =>
    exact ih.trans (fun _ _ hturn _ => hturn.1) (fun _ _ _ h => h.trans) hact.thinned

/-! ### The statistics match the list -/

/-- The element has a message, or it stands for dropped ones. -/
def LogBufferElement.Sized (e : LogBufferElement) : Prop := e.getMsgLen ≠ 0 ∨ e.getDropped ≠ 0

/-- The statistics match the list, in which no element is empty. -/
structure Store.Accounted (s : Store) : Prop where
  accounts : Accounts s.stats s.elems
  sized : ∀ e ∈ s.elems, e.Sized

/-- The statistics match the list, which has the nodes of the cursor. -/
theorem Cursor.Fits.elems_eq (hc : c.Fits) :
    c.store.elems = c.past.map Node.elem ++ c.todo.map Node.elem := by
  rw [Store.elems, hc.nodes, map_append]

theorem Act.accounts (h : Act id P c c') (hc : c.Fits) (ha : c.store.Accounted) :
    c'.store.Accounted := by
  have haccounts := ha.accounts
  have hsized := ha.sized
  have helems' := (h.fits hc).elems_eq
  rw [hc.elems_eq] at haccounts hsized
  cases h with
  | skip => exact ha
  | mark s past it =>
    refine ⟨?_, ?_⟩
    · rw [helems', Store.markLast_stats]
      exact haccounts
    · rw [helems']
      exact hsized
  | erase s past it rest =>
    refine ⟨?_, ?_⟩
    · rw [helems']
      exact haccounts.subtract
    · rw [helems']
      intro e he
      exact hsized e (mem_append.2 ((mem_append.1 he).imp_right (mem_cons_of_mem _)))
  | merge s us found vs it rest hfound hit hid huid hfne hne hfit =>
    simp only [map_append, map_cons] at haccounts hsized helems'
    have hcount := count_ne_zero hne hfit
    refine ⟨?_, ?_⟩
    · rw [helems']
      exact haccounts.erase hid huid hfne hne hfit
    · rw [helems']
      intro e he
      simp only [mem_append, mem_cons] at he hsized
      rcases he with (he | rfl | he) | he
      · exact hsized e (.inl (.inl he))
      · exact .inr hcount
      · exact hsized e (.inl (.inr (.inr he)))
      · exact hsized e (.inr (.inr he))
  | drop s past it rest hp hplain =>
    simp only [map_cons] at haccounts hsized helems'
    -- an element that is not chatty has a message
    have hlen : it.elem.getMsgLen ≠ 0 :=
      (hsized it.elem (by simp)).resolve_right (not_not_intro hplain)
    refine ⟨?_, ?_⟩
    · rw [helems']
      exact haccounts.drop hlen hplain
    · rw [helems']
      intro e he
      simp only [mem_append, mem_cons] at he hsized
      rcases he with he | rfl | he
      · exact hsized e (.inl he)
      · exact .inr (by simp [Node.setDropped])
      · exact hsized e (.inr (.inr he))
  | worst | worstPid | readers => exact ⟨ha.accounts, ha.sized⟩
  | restart => exact ha

theorem Acts.accounts (h : Acts id P c c') (hc : c.Fits) (ha : c.store.Accounted) :
    c'.store.Accounted := by
  induction h with
  | refl => exact ha
  | tail hacts hact ih => exact hact.accounts (Acts.fits hacts hc) ih

end AndroidCore.Logd
