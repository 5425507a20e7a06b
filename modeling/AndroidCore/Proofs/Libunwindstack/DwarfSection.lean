import AndroidCore.Libunwindstack.DwarfSection

/-!
# `AndroidCore.Proofs.Libunwindstack.DwarfSection`: the rules are evaluated in place

`Eval` writes the registers while it goes through the rules, so that a rule that fails
leaves the values of the rules before it behind. `eval_keeps_regs_iff` says when it does
not: no rule up to the one that fails, in the order of the iteration, puts another value
into its register. A step that succeeds does not depend on the order
(`eval_order_independent`).

A rule may read a register only if that register has no rule, and no register is visited
twice. The effects of the rules are therefore those on the registers as they were at the
start (`registerEffect_congr`), and the registers at the failure are the first ones with
the effects of the rules applied (`evalRules_error`).
-/

namespace AndroidCore.Libunwindstack

open List

variable {t : AddressType} {s : Section} {m : Memory} {cie : DwarfCie} {locRegs : LocRegs}
  {cfa : Address t}

/-! ### Writing registers -/

theorem write_length (regs : RegsImpl t) (reg : Reg) (value : Option (Address t)) :
    (regs.write reg value).regs.length = regs.regs.length := by
  cases value with
  | none => rfl
  | some v => exact length_set ..

variable {reg q : Reg}

theorem write_of_ne (regs : RegsImpl t) (value : Option (Address t)) (h : q ≠ reg) :
    (regs.write reg value).regs[q.toNat]? = regs.regs[q.toNat]? := by
  cases value with
  | none => rfl
  | some v =>
    refine getElem?_set_ne (fun heq => h ?_)
    exact (BitVec.eq_of_toNat_eq heq).symm

variable {regs : RegsImpl t}

/-- Writing the value a register has changes nothing. -/
theorem write_eq_self {value : Option (Address t)}
    (h : ∀ v ∈ value, regs.regs[reg.toNat]? = some v) :
    regs.write reg value = regs := by
  cases value with
  | none => rfl
  | some v =>
    have hget : regs.regs[reg.toNat]? = some v := h v rfl
    have hset : regs.regs.set reg.toNat v = regs.regs := by
      obtain ⟨hlt, rfl⟩ := List.getElem?_eq_some_iff.mp hget
      exact set_getElem_self hlt
    simp [RegsImpl.write, hset]

/-- The registers with the effects of some rules applied. -/
def writeAll (effect : Reg → RuleEffect t) (l : List Reg) (regs : RegsImpl t) : RegsImpl t :=
  l.foldl (fun r q => r.write q (effect q).written) regs

variable {l : List Reg}

section
variable (effect : Reg → RuleEffect t)

theorem writeAll_of_notMem (h : q ∉ l) (regs : RegsImpl t) :
    (writeAll effect l regs).regs[q.toNat]? = regs.regs[q.toNat]? := by
  induction l generalizing regs with
  | nil => rfl
  | cons r l ih =>
    rw [mem_cons, not_or] at h
    exact (ih h.2 _).trans (write_of_ne regs _ h.1)

theorem writeAll_length (l : List Reg) (regs : RegsImpl t) :
    (writeAll effect l regs).regs.length = regs.regs.length := by
  induction l generalizing regs with
  | nil => rfl
  | cons r l ih => exact (ih _).trans (write_length ..)

/-- A register that a rule has written holds that value afterwards. -/
theorem writeAll_of_mem (hnodup : l.Nodup) (hq : q ∈ l) {v : Address t}
    (hv : (effect q).written = some v) (regs : RegsImpl t) (hlt : q.toNat < regs.regs.length) :
    (writeAll effect l regs).regs[q.toNat]? = some v := by
  induction l generalizing regs with
  | nil => cases hq
  | cons r l ih =>
    rw [nodup_cons] at hnodup
    rcases mem_cons.mp hq with rfl | hq
    · refine (writeAll_of_notMem effect hnodup.1 _).trans ?_
      simp only [hv]
      exact getElem?_set_self hlt
    · exact ih hnodup.2 hq _ (by rw [write_length]; exact hlt)

end

/-- Rules that may be applied without a change of any register. -/
def Keeps (effect : Reg → RuleEffect t) (l : List Reg) (regs : RegsImpl t) : Prop :=
  ∀ q ∈ l, ∀ v ∈ (effect q).written, regs.regs[q.toNat]? = some v

/-- The registers are the same afterwards exactly when every rule writes the value its
register has. -/
theorem writeAll_eq_self_iff {effect : Reg → RuleEffect t} (hnodup : l.Nodup)
    (hlt : ∀ q ∈ l, (effect q).written.isSome → q.toNat < regs.regs.length) :
    writeAll effect l regs = regs ↔ Keeps effect l regs := by
  constructor
  · intro h q hq v hv
    rw [← h]
    exact writeAll_of_mem effect hnodup hq hv regs (hlt q hq (by rw [hv]; rfl))
  · intro h
    clear hnodup hlt
    induction l with
    | nil => rfl
    | cons r l ih =>
      have hr : regs.write r (effect r).written = regs :=
        write_eq_self (h r mem_cons_self)
      change writeAll effect l (regs.write r (effect r).written) = regs
      rw [hr]
      exact ih fun q hq => h q (mem_cons_of_mem r hq)

/-! ### The effects of the rules -/

variable {regs' : RegsImpl t}

/-- A rule is evaluated in the same way on registers that differ only in registers that
have a rule, and not in its own. -/
theorem registerEffect_congr (hlen : regs'.regs.length = regs.regs.length)
    (hself : regs'.regs[reg.toNat]? = regs.regs[reg.toNat]?)
    (hfree : ∀ q, locRegs q = none → regs'.regs[q.toNat]? = regs.regs[q.toNat]?) :
    registerEffect s m cie locRegs cfa regs' reg
      = registerEffect s m cie locRegs cfa regs reg := by
  unfold registerEffect
  rw [hself]
  split
  · rfl
  · split
    · rename_i old loc _ _
      unfold ruleEffect
      -- Only a register rule looks at another register.
      cases loc.type with
      | register =>
        simp only
        cases hrule : locRegs (loc.value0.setWidth 16) with
        | none => rw [hfree _ hrule]
        | some rule =>
          -- It fails either way, and how depends on the number of registers only.
          cases h : regs.regs[(BitVec.setWidth 16 loc.value0).toNat]? <;>
            cases h' : regs'.regs[(BitVec.setWidth 16 loc.value0).toNat]? <;>
            simp_all
      | _ => rfl
    · rfl

/-- A rule writes registers of the register file only. -/
theorem registerEffect_lt (h : (registerEffect s m cie locRegs cfa regs reg).written.isSome) :
    reg.toNat < regs.regs.length := by
  unfold registerEffect at h
  split at h
  · cases h
  · split at h
    · rename_i old loc hold _
      exact (List.getElem?_eq_some_iff.mp hold).1
    · cases h

section

-- The effects of the rules on the registers as they are at the start.
variable {effect : Reg → RuleEffect t} (heffect : effect = registerEffect s m cie locRegs cfa regs)

include heffect

/-- One round of the loop over the rules, from registers to which the rules of `done` have
been applied. -/
theorem evalRules_cons (done : List Reg) (r : Reg) (l : List Reg)
    (hnodup : (done ++ r :: l).Nodup) (hkeys : ∀ q ∈ done ++ r :: l, (locRegs q).isSome) :
    evalRules s m cie locRegs cfa (r :: l) (writeAll effect done regs) =
      match (effect r).fault with
      | some e => (.error e, writeAll effect (done ++ [r]) regs)
      | none => evalRules s m cie locRegs cfa l (writeAll effect (done ++ [r]) regs) := by
  have hr : r ∉ done := fun hmem =>
    (nodup_append.mp hnodup).2.2 r hmem r mem_cons_self rfl
  -- The rules of `done` have not touched what the next rule looks at.
  have hsame : registerEffect s m cie locRegs cfa (writeAll effect done regs) r
      = effect r := by
    rw [heffect]
    refine registerEffect_congr (writeAll_length ..) (writeAll_of_notMem _ hr _) ?_
    intro q hq
    refine writeAll_of_notMem _ (fun hmem => ?_) _
    have := hkeys q (mem_append_left _ hmem)
    rw [hq] at this
    cases this
  have hwrite : (writeAll effect done regs).write r (effect r).written
      = writeAll effect (done ++ [r]) regs := by
    simp [writeAll]
  rw [evalRules, hsame]
  cases (effect r).fault with
  | none | some e => rw [← hwrite]

/-- If the loop fails, it is at the first rule that fails on the registers as they were, and
the rules up to that one have been applied. -/
theorem evalRules_error {e : Fault} (done l : List Reg) (hnodup : (done ++ l).Nodup)
    (hkeys : ∀ q ∈ done ++ l, (locRegs q).isSome) :
    evalRules s m cie locRegs cfa l (writeAll effect done regs) = (.error e, regs') ↔
      ∃ pre reg post, l = pre ++ reg :: post ∧ (∀ q ∈ pre, (effect q).fault = none) ∧
        (effect reg).fault = some e ∧ regs' = writeAll effect (done ++ pre ++ [reg]) regs := by
  induction l generalizing done with
  | nil => simp [evalRules]
  | cons r l ih =>
    rw [evalRules_cons heffect done r l hnodup hkeys]
    cases hfault : (effect r).fault with
    | some e' =>
      constructor
      · intro h
        cases h
        exact ⟨[], r, l, rfl, by simp, hfault, by simp⟩
      · rintro ⟨pre, reg, post, hl, hpre, hreg, rfl⟩
        cases pre with
        | nil =>
          cases hl
          rw [hfault] at hreg
          cases hreg
          simp
        | cons q pre =>
          cases hl
          have := hpre r mem_cons_self
          rw [hfault] at this
          cases this
    | none =>
      rw [ih (done ++ [r]) (by simpa using hnodup) (by simpa using hkeys)]
      constructor
      · rintro ⟨pre, reg, post, rfl, hpre, hreg, rfl⟩
        exact ⟨r :: pre, reg, post, rfl, forall_mem_cons.mpr ⟨hfault, hpre⟩, hreg, by simp⟩
      · rintro ⟨pre, reg, post, hl, hpre, hreg, rfl⟩
        cases pre with
        | nil =>
          cases hl
          rw [hfault] at hreg
          cases hreg
        | cons q pre =>
          cases hl
          exact ⟨pre, reg, post, rfl, (forall_mem_cons.mp hpre).2, hreg, by simp⟩

/-- If no rule fails on the registers as they were, all of them are applied. -/
theorem evalRules_ok (done l : List Reg) (hnodup : (done ++ l).Nodup)
    (hkeys : ∀ q ∈ done ++ l, (locRegs q).isSome) :
    evalRules s m cie locRegs cfa l (writeAll effect done regs) = (.ok (), regs') ↔
      (∀ q ∈ l, (effect q).fault = none) ∧ regs' = writeAll effect (done ++ l) regs := by
  induction l generalizing done with
  | nil => simp [evalRules, eq_comm]
  | cons r l ih =>
    rw [evalRules_cons heffect done r l hnodup hkeys, forall_mem_cons]
    cases hfault : (effect r).fault with
    | some e => simp
    | none =>
      rw [ih (done ++ [r]) (by simpa using hnodup) (by simpa using hkeys)]
      simp

end

/-! ### A failed step -/

/-- `Eval` fails and leaves the registers as they are for every failure, if and only if
the following holds. Whenever the CFA is found and a rule fails, no rule up to that one
puts another value into its register, all of them taken on the registers before the
step. -/
theorem eval_keeps_regs_iff (s : Section) (m : Memory) (cie : DwarfCie) (locRegs : LocRegs)
    (order : Iteration locRegs) (regs : RegsImpl t) :
    (∀ e regs', eval s m cie locRegs order regs = (.error (.error e), regs') → regs' = regs) ↔
      (regs.regs[cie.returnAddressRegister.toNat]?.isSome →
        ∀ cfa, evalCfa s m cie locRegs regs = .ok cfa →
        ∀ pre reg post e, order.order = pre ++ reg :: post →
          (∀ q ∈ pre, (registerEffect s m cie locRegs cfa regs q).fault = none) →
          (registerEffect s m cie locRegs cfa regs reg).fault = some (.error e) →
          Keeps (registerEffect s m cie locRegs cfa regs) (pre ++ [reg]) regs) := by
  have hkeys : ∀ q ∈ [] ++ order.order, (locRegs q).isSome :=
    fun q => (order.mem_iff q).mp
  -- Applying the rules of a part of the order changes nothing iff they all keep.
  have hself : ∀ cfa pre reg post, order.order = pre ++ reg :: post →
      (writeAll (registerEffect s m cie locRegs cfa regs) (pre ++ [reg]) regs = regs ↔
        Keeps (registerEffect s m cie locRegs cfa regs) (pre ++ [reg]) regs) := by
    intro cfa pre reg post hsplit
    refine writeAll_eq_self_iff ?_ fun q _ => registerEffect_lt
    have hnodup := order.nodup
    rw [hsplit, show pre ++ reg :: post = (pre ++ [reg]) ++ post by simp] at hnodup
    exact (nodup_append.mp hnodup).1
  constructor
  · intro h hra cfa hcfa pre reg post e hsplit hpre hreg
    rw [← hself cfa pre reg post hsplit]
    refine h e _ ?_
    have hrules := (evalRules_error rfl [] order.order order.nodup hkeys).mpr
      ⟨pre, reg, post, hsplit, hpre, hreg, rfl⟩
    obtain ⟨ra, hra⟩ := Option.isSome_iff_exists.mp hra
    rw [eval, hra, hcfa]
    change (match evalRules s m cie locRegs cfa order.order regs with | _ => _) = _
    rw [show evalRules s m cie locRegs cfa order.order regs = _ from hrules]
    rfl
  · intro h e regs' heval
    unfold eval at heval
    split at heval
    · cases heval
      rfl
    · rename_i ra hra
      split at heval
      · cases heval
        rfl
      · rename_i cfa hcfa
        split at heval
        · rename_i e' regs'' hrules
          cases heval
          obtain ⟨pre, reg, post, hsplit, hpre, hreg, rfl⟩ :=
            (evalRules_error rfl [] order.order order.nodup hkeys).mp hrules
          exact (hself cfa pre reg post hsplit).mpr
            (h (by rw [hra]; rfl) cfa hcfa pre reg post e hsplit hpre hreg)
        · cases heval

/-! ### The order of the rules -/

/-- Registers can be written in any order. -/
theorem writeAll_perm {l' : List Reg} (effect : Reg → RuleEffect t) (h : l.Perm l')
    (regs : RegsImpl t) : writeAll effect l regs = writeAll effect l' regs := by
  refine h.foldl_eq' (fun p _ q _ r => ?_) regs
  by_cases hpq : p = q
  · rw [hpq]
  · have hne : p.toNat ≠ q.toNat := fun heq => hpq (BitVec.eq_of_toNat_eq heq)
    cases (effect p).written with
    | none => rfl
    | some v =>
      cases (effect q).written with
      | none => rfl
      | some w => simp [RegsImpl.write, set_comm v w hne]

/-- If `Eval` succeeds then no rule fails on the registers before the step, all of them are
applied, and any other order has the same result. -/
theorem eval_ok {order : Iteration locRegs} {finished : Bool}
    (h : eval s m cie locRegs order regs = (.ok finished, regs')) :
    (∃ cfa, (∀ q ∈ order.order, (registerEffect s m cie locRegs cfa regs q).fault = none) ∧
      regs'.regs = (writeAll (registerEffect s m cie locRegs cfa regs) order.order regs).regs) ∧
    ∀ order', eval s m cie locRegs order' regs = (.ok finished, regs') := by
  have hkeys : ∀ order : Iteration locRegs, ∀ q ∈ [] ++ order.order, (locRegs q).isSome :=
    fun order q => (order.mem_iff q).mp
  unfold eval at h ⊢
  split at h
  · cases h
  split at h
  · cases h
  next cfa hcfa =>
  split at h
  · cases h
  next mid hrules =>
  cases h
  obtain ⟨hfault, hmid⟩ := (evalRules_ok rfl [] _ order.nodup (hkeys order)).mp hrules
  refine ⟨⟨cfa, hfault, by rw [hmid]; rfl⟩, fun order' => ?_⟩
  have hperm : order.order.Perm order'.order := by
    refine (perm_ext_iff_of_nodup order.nodup order'.nodup).mpr fun q => ?_
    rw [order.mem_iff, order'.mem_iff]
  have hrules' := (evalRules_ok rfl [] _ order'.nodup (hkeys order')).mpr
    ⟨fun q hq => hfault q (hperm.mem_iff.mpr hq), hmid.trans (writeAll_perm _ hperm regs)⟩
  rw [show evalRules s m cie locRegs cfa order'.order regs = _ from hrules']

/-- Whether `Eval` succeeds, and then the registers, the pc, the stack pointer and `*finished`,
are the same for every order of the rules. A rule that names another register gives the value
that this register had before the step. -/
theorem eval_order_independent (s : Section) (m : Memory) (cie : DwarfCie) (locRegs : LocRegs)
    (order order' : Iteration locRegs) (regs : RegsImpl t) (finished : Bool) (regs' : RegsImpl t) :
    (eval s m cie locRegs order regs = (.ok finished, regs') ↔
      eval s m cie locRegs order' regs = (.ok finished, regs')) ∧
    (eval s m cie locRegs order regs = (.ok finished, regs') →
      ∀ reg loc, reg ≠ cfaReg → reg.toNat < regs.regs.length → locRegs reg = some loc →
        loc.type = .register →
        ∃ value, regs.regs[(loc.value0.setWidth 16).toNat]? = some value ∧
          regs'.regs[reg.toNat]? = some (value + loc.value1.setWidth t.bits)) := by
  refine ⟨⟨fun h => (eval_ok h).2 order', fun h => (eval_ok h).2 order⟩, ?_⟩
  intro h reg loc hne hlt hloc htype
  obtain ⟨cfa, hfault, hregs⟩ := (eval_ok h).1
  have hmem : reg ∈ order.order := (order.mem_iff reg).mpr (by rw [hloc]; rfl)
  have heffect : registerEffect s m cie locRegs cfa regs reg
      = ruleEffect s m cie locRegs cfa regs regs.regs[reg.toNat] loc := by
    rw [registerEffect, if_neg hne, getElem?_eq_getElem hlt, hloc]
  have hfault := hfault reg hmem
  rw [heffect, ruleEffect, htype] at hfault
  cases hvalue : regs.regs[(loc.value0.setWidth 16).toNat]? with
  | none =>
    simp only [hvalue] at hfault
    cases hfault
  | some value =>
    refine ⟨value, rfl, ?_⟩
    rw [hregs]
    refine writeAll_of_mem _ order.nodup hmem ?_ regs hlt
    rw [heffect, ruleEffect, htype]
    simp only [hvalue] at hfault ⊢
    split at hfault
    · cases hfault
    next hrule => rw [if_neg hrule, RuleEffect.writes]

/-- The CFA is register 0, and register 0 is register 1 plus 4 before the step. -/
def movedRules : LocRegs :=
  (LocRegs.empty.set cfaReg ⟨.register, 0, 0⟩).set 0 ⟨.register, 1, 4⟩

/-- The rules of `movedRules`, the one of the CFA first. -/
def movedRulesOrder : Iteration movedRules where
  order := [cfaReg, 0]
  nodup := by decide
  mem_iff reg := by
    simp only [movedRules, LocRegs.set, LocRegs.empty]
    split_ifs <;> simp_all

theorem eval_order_independent_movedRules :
    eval (t := .uint64) ⟨[], by decide⟩ unmapped ⟨4, 0, 0, 1, 1, 0⟩ movedRules movedRulesOrder
        ⟨[10, 20], 7, 1, 2⟩ = (.ok false, ⟨[24, 20], 7, 24, 10⟩) ∧
      ∃ value, ([10, 20] : List (Address .uint64))[1]? = some value ∧
        ([24, 20] : List (Address .uint64))[0]? = some (value + 4) :=
  ⟨rfl, (eval_order_independent ⟨[], by decide⟩ unmapped ⟨4, 0, 0, 1, 1, 0⟩ movedRules
    movedRulesOrder movedRulesOrder ⟨[10, 20], 7, 1, 2⟩ false ⟨[24, 20], 7, 24, 10⟩).2 rfl
    0 ⟨.register, 1, 4⟩ (by decide) (by decide) rfl rfl⟩

/-- Register 0 is the CFA and gets the value of the CFA plus 8; register 1 is in memory at
the CFA. -/
def twoRules : LocRegs :=
  ((LocRegs.empty.set cfaReg ⟨.register, 0, 0⟩).set 0 ⟨.valOffset, 8, 0⟩).set 1 ⟨.offset, 0, 0⟩

/-- The rules of `twoRules` in the order of the registers. -/
def twoRulesOrder : Iteration twoRules where
  order := [0, 1, cfaReg]
  nodup := by decide
  mem_iff reg := by
    simp only [twoRules, LocRegs.set, LocRegs.empty]
    split_ifs <;> simp_all

/-- The rule of register 1 cannot be evaluated, and register 0 has a new value already. -/
theorem twoRules_failed_step_changes_regs :
    eval (t := .uint64) ⟨[], by decide⟩ unmapped ⟨4, 0, 0, 1, 1, 0⟩ twoRules twoRulesOrder
        ⟨[10, 20], 7, 1, 2⟩
      = (.error (.error .memoryInvalid), ⟨[18, 20], 7, 1, 2⟩) := by
  rfl

end AndroidCore.Libunwindstack
