import AndroidCore.Libunwindstack.DwarfSection

/-!
# `AndroidCore.Proofs.Libunwindstack.DwarfCfa`: expression rules and the cache of the CIEs

Two facts about the interpreter of call frame instructions.

* `expression_range_iff`: the rule that an expression instruction records makes
  `EvalExpression` evaluate the bytes behind the block and not the block. It is right for
  the empty block only. The reader is behind the block when the handler takes its offset
  for the start of the expression.
* `getCfaLocationInfo_eq_fresh`: a lookup does not depend on the lookups before it, when
  every lookup is for a pc that is not below the start of its FDE and the programs of the
  CIEs neither move the location nor remember a state.

The offsets a program is read from depend on the bytes of the section alone
(`ProgramOffset`), so that the condition on a CIE is one on its bytes.
-/

namespace AndroidCore.Libunwindstack

variable {t : AddressType}

/-! ### Runs of the interpreter -/

/-- One iteration of the loop that succeeds. -/
def CfaIterates (s : Section) (fde : DwarfFde) (cieLocRegs : Option LocRegs)
    (pc endOffset : Word) (st st' : CfaState t) : Prop :=
  cfaContinues pc endOffset st = true ∧ cfaStep s fde cieLocRegs st = .ok st'

/-- The states the loop goes through. -/
def CfaReaches (s : Section) (fde : DwarfFde) (cieLocRegs : Option LocRegs)
    (pc endOffset : Word) : CfaState t → CfaState t → Prop :=
  Relation.ReflTransGen (CfaIterates s fde cieLocRegs pc endOffset)

variable {cieLocRegs : Option LocRegs} {fde : DwarfFde} {pc endOffset : Word} {st st' : CfaState t}
  {s : Section}

/-- The loop goes on from the state after an iteration. -/
theorem cfaLoop_iterate (h : CfaIterates s fde cieLocRegs pc endOffset st st') (fuel : Nat) :
    cfaLoop s fde cieLocRegs pc endOffset (fuel + 1) st
      = cfaLoop s fde cieLocRegs pc endOffset fuel st' := by
  rw [cfaLoop, if_pos h.1, h.2]

/-- Every state of a run is where the loop stands after some iterations. -/
theorem cfaLoop_of_reaches (h : CfaReaches s fde cieLocRegs pc endOffset st st') :
    ∃ k, ∀ fuel, cfaLoop s fde cieLocRegs pc endOffset (fuel + k) st
      = cfaLoop s fde cieLocRegs pc endOffset fuel st' := by
  induction h with
  | refl => exact ⟨0, fun _ => rfl⟩
  | @tail mid last _ hstep ih =>
    obtain ⟨k, hk⟩ := ih
    refine ⟨k + 1, fun fuel => ?_⟩
    rw [show fuel + (k + 1) = (fuel + 1) + k by omega, hk, cfaLoop_iterate hstep]

/-! ### The range of an expression -/

/-- At an offset of the section there is an instruction that gives a register an
expression, whose block has `n` bytes from the offset `b` on. -/
inductive ExpressionAt (t : AddressType) (s : Section) (o : Word) : Reg → Word → Word → Prop
  /-- `DW_CFA_def_cfa_expression`. -/
  | defCfaExpression {o₁ n b : Word} (hop : s.readBytes o 1 = .ok ([0x0f], o₁))
      (hblock : s.readULEB128 o₁ = .ok (n, b)) : ExpressionAt t s o cfaReg n b
  /-- `DW_CFA_expression`. -/
  | expression {o₁ o₂ reg n b : Word} (hop : s.readBytes o 1 = .ok ([0x10], o₁))
      (hreg : s.readULEB128 o₁ = .ok (reg, o₂)) (hblock : s.readULEB128 o₂ = .ok (n, b)) :
      ExpressionAt t s o ((reg.setWidth t.bits).setWidth 16) n b
  /-- `DW_CFA_val_expression`. -/
  | valExpression {o₁ o₂ reg n b : Word} (hop : s.readBytes o 1 = .ok ([0x16], o₁))
      (hreg : s.readULEB128 o₁ = .ok (reg, o₂)) (hblock : s.readULEB128 o₂ = .ok (n, b)) :
      ExpressionAt t s o ((reg.setWidth t.bits).setWidth 16) n b

/-- The rule for a block of `n` bytes: the length goes through an `AddressType`, and the
offset is that of the reader, behind the block. -/
def blockRule (t : AddressType) (type : DwarfLocationEnum) (n b : Word) : DwarfLocation :=
  ⟨type, (n.setWidth t.bits).setWidth 64, b + n⟩

/-- An expression instruction succeeds and records the rule of its block. -/
theorem cfaStep_expression {reg : Reg} {n b : Word} (h : ExpressionAt t s st.curOffset reg n b) :
    ∃ type, (type = .expression ∨ type = .valExpression) ∧
      cfaStep s fde cieLocRegs st
        = .ok { st with
            curOffset := b + n
            locRegs := st.locRegs.set reg (blockRule t type n b) } := by
  cases h with
  | defCfaExpression hop hblock =>
    simp [cfaStep, fetch, hop, cfaTable, readOperands, hblock, orFault, bind, Except.bind,
      pure, Except.pure, execute, handle, blockRule]
  | expression hop hreg hblock | valExpression hop hreg hblock =>
    simp [cfaStep, fetch, hop, cfaTable, readOperands, Section.readEncodedValue, hreg,
      hblock, orFault, bind, Except.bind, pure, Except.pure, execute, handle,
      CfaState.setRule, blockRule]

/-- The range evaluated for a block is the block exactly when both are empty. -/
theorem expressionRange_blockRule_iff (type : DwarfLocationEnum) (n b : Word) :
    expressionRange (blockRule t type n b) = (b, b + n) ↔ n = 0 := by
  unfold expressionRange blockRule
  constructor
  · intro h
    have hstart : b + n = b := congrArg Prod.fst h
    simpa using hstart
  · rintro rfl
    simp

/-- In every run of the interpreter, an expression instruction records a rule for its
register that makes `EvalExpression` run over the block of the instruction if and only if
the block is empty. `GetLocationInfo` goes on from the state with that rule. -/
theorem expression_range_iff {s : Section} {fde : DwarfFde} {cieLocRegs : Option LocRegs}
    {pc startOffset endOffset : Word} {locRegs : LocRegs} {locRegState : List LocRegs}
    {st : CfaState t}
    (hrun : CfaReaches s fde cieLocRegs pc endOffset
      (cfaStart t fde cieLocRegs startOffset locRegs locRegState) st)
    (hcont : cfaContinues pc endOffset st = true) {reg : Reg} {n b : Word}
    (hat : ExpressionAt t s st.curOffset reg n b) :
    ∃ (k : Nat) (st' : CfaState t) (loc : DwarfLocation),
      (∀ fuel, getLocationInfo t s fde cieLocRegs (fuel + k) pc startOffset endOffset locRegs
          locRegState
        = cfaLoop s fde cieLocRegs pc endOffset fuel st') ∧
      st'.locRegs reg = some loc ∧
      (loc.type = .expression ∨ loc.type = .valExpression) ∧
      (expressionRange loc = (b, b + n) ↔ n = 0) := by
  obtain ⟨type, htype, hstep⟩ := cfaStep_expression hat
  obtain ⟨k, hk⟩ := cfaLoop_of_reaches (hrun.tail ⟨hcont, hstep⟩)
  exact ⟨k, _, blockRule t type n b, hk, LocRegs.set_self .., htype,
    expressionRange_blockRule_iff type n b⟩

/-- `DW_CFA_def_cfa_expression` with a block of one byte, `DW_OP_lit0`. -/
def literalBlock : Section := ⟨[0x0f, 0x01, 0x30], by decide⟩

/-- An FDE that starts at 0, with the program of three bytes at offset 0. -/
def literalFde : DwarfFde := ⟨0, 0, 3, 0, ⟨4, 0, 0, 1, 1, 0⟩⟩

/-- The instruction of `literalBlock`. -/
theorem literalBlock_at : ExpressionAt .uint64 literalBlock 0 cfaReg 1 2 :=
  .defCfaExpression (by rfl) (by rfl)

/-- Witness for `expression_range_iff`. -/
theorem expression_range_literalBlock :
    cfaContinues (t := .uint64) 0 3 (cfaStart .uint64 literalFde none 0 LocRegs.empty [])
      = true ∧
    ∃ (k : Nat) (st' : CfaState .uint64) (loc : DwarfLocation),
      (∀ fuel, getLocationInfo .uint64 literalBlock literalFde none (fuel + k) 0 0 3
          LocRegs.empty []
        = cfaLoop literalBlock literalFde none 0 3 fuel st') ∧
      st'.locRegs cfaReg = some loc ∧
      (loc.type = .expression ∨ loc.type = .valExpression) ∧
      (expressionRange loc = (2, 2 + 1) ↔ (1 : Word) = 0) :=
  ⟨by decide, expression_range_iff .refl (by decide) literalBlock_at⟩

/-- For a block of one byte at offset 2 the range is the byte at offset 3. -/
theorem literalBlock_range :
    ExpressionAt .uint64 literalBlock 0 cfaReg 1 2 ∧
    (getLocationInfo .uint64 literalBlock literalFde none 2 0 0 3 LocRegs.empty []).map
        (fun info => (info.locRegs cfaReg).map expressionRange) = some (some (3, 4)) ∧
    ((3, 4) : Word × Word) ≠ (2, 2 + 1) :=
  ⟨literalBlock_at, by rfl, by decide⟩

/-! ### The instructions for an offset from the CFA -/

/-- `DW_CFA_offset`, `DW_CFA_offset_extended` and `DW_CFA_offset_extended_sf`. -/
inductive OffsetForm where
  | offset
  | offsetExtended
  | offsetExtendedSf
deriving DecidableEq, Repr

/-- At an offset of the section there is the instruction of a form, for a register and a
factored offset `n`. -/
inductive OffsetForm.At (s : Section) (o : Word) (reg : Reg) (n : Word) : OffsetForm → Prop
  /-- The register is in the low bits of the opcode. -/
  | offset {o₁ o₂ : Word}
      (hop : s.readBytes o 1 = .ok ([UInt8.ofNat (0x80 + reg.toNat)], o₁))
      (hoffset : s.readULEB128 o₁ = .ok (n, o₂)) : At s o reg n .offset
  | offsetExtended {o₁ o₂ o₃ : Word} (hop : s.readBytes o 1 = .ok ([0x05], o₁))
      (hreg : s.readULEB128 o₁ = .ok (reg.setWidth 64, o₂))
      (hoffset : s.readULEB128 o₂ = .ok (n, o₃)) : At s o reg n .offsetExtended
  | offsetExtendedSf {o₁ o₂ o₃ : Word} (hop : s.readBytes o 1 = .ok ([0x11], o₁))
      (hreg : s.readULEB128 o₁ = .ok (reg.setWidth 64, o₂))
      (hoffset : s.readSLEB128 o₂ = .ok (n, o₃)) : At s o reg n .offsetExtendedSf

/-- The offset that a form records: `cfa_offset` does not multiply by the factor. -/
def OffsetForm.value (t : AddressType) (n dataAlignmentFactor : Word) : OffsetForm → Word
  | .offsetExtended => (n.setWidth t.bits).setWidth 64
  | _ => factored (n.setWidth t.bits) dataAlignmentFactor

/-- A register survives the way through an operand. -/
theorem setWidth_operand (t : AddressType) (reg : Reg) :
    (reg.setWidth t.bits).setWidth 16 = reg := by
  cases t <;> (simp [AddressType.bits, AddressType.size])

/-- An instruction of any form succeeds and sets the rule of its register only. -/
theorem cfaStep_offsetForm {reg : Reg} {n : Word} {form : OffsetForm} (hreg : reg.toNat < 64)
    (h : form.At s st.curOffset reg n) :
    ∃ o, cfaStep s fde cieLocRegs st
      = .ok { st with
          curOffset := o
          locRegs := st.locRegs.set reg
            ⟨.offset, form.value t n fde.cie.dataAlignmentFactor, 0⟩ } := by
  cases h with
  | @offset o₁ o₂ hop hoffset =>
    -- the opcode byte splits into the high bits 2 and the register
    have hhigh : (0x80 + reg.toNat) % 256 / 64 = 2 := by omega
    have hlow : (0x80 + reg.toNat) % 64 = reg.toNat := by omega
    simp [cfaStep, fetch, hop, hhigh, hlow, hoffset, orFault, bind, Except.bind, pure,
      Except.pure, execute, OffsetForm.value]
  | @offsetExtended o₁ o₂ o₃ hop hreg hoffset | @offsetExtendedSf o₁ o₂ o₃ hop hreg hoffset =>
    simp [cfaStep, fetch, hop, cfaTable, readOperands, Section.readEncodedValue, hreg,
      hoffset, orFault, bind, Except.bind, pure, Except.pure, execute, handle,
      CfaState.setRule, OffsetForm.value, setWidth_operand]

/-- From any state, the three instructions for a register and a factored offset all record
the product with the alignment factor, and no other rule, if and only if the product is the
factored offset itself. -/
theorem offsetForms_iff {reg : Reg} {n : Word} {o : OffsetForm → Word} (hreg : reg.toNat < 64)
    (hat : ∀ form : OffsetForm, form.At s (o form) reg n) :
    (∀ form, ∃ o', cfaStep s fde cieLocRegs { st with curOffset := o form }
      = .ok { st with
          curOffset := o'
          locRegs := st.locRegs.set reg
            ⟨.offset, factored (n.setWidth t.bits) fde.cie.dataAlignmentFactor, 0⟩ }) ↔
    (n.setWidth t.bits).setWidth 64
      = factored (n.setWidth t.bits) fde.cie.dataAlignmentFactor := by
  have hstep : ∀ form : OffsetForm, ∃ o',
      cfaStep s fde cieLocRegs { st with curOffset := o form }
        = .ok { st with
            curOffset := o'
            locRegs := st.locRegs.set reg
              ⟨.offset, form.value t n fde.cie.dataAlignmentFactor, 0⟩ } :=
    fun form => cfaStep_offsetForm hreg (hat form)
  constructor
  · intro h
    obtain ⟨o₁, h₁⟩ := h .offsetExtended
    obtain ⟨o₂, h₂⟩ := hstep .offsetExtended
    rw [h₂] at h₁
    have hrules := congrArg (fun st : CfaState t => st.locRegs reg) (Except.ok.inj h₁)
    simpa [OffsetForm.value] using hrules
  · intro h form
    obtain ⟨o', ho'⟩ := hstep form
    refine ⟨o', ?_⟩
    rw [ho']
    cases form with
    | offset => rfl
    | offsetExtended => rw [← h]; rfl
    | offsetExtendedSf => rfl

/-- The three instructions for register 1 and the factored offset 1. -/
def offsetForms : Section := ⟨[0x81, 0x01, 0x05, 0x01, 0x01, 0x11, 0x01, 0x01], by decide⟩

/-- Where `offsetForms` has an instruction. -/
def offsetForms.offset : OffsetForm → Word
  | .offset => 0
  | .offsetExtended => 2
  | .offsetExtendedSf => 5

theorem offsetForms_at (form : OffsetForm) : form.At offsetForms (offsetForms.offset form) 1 1 := by
  cases form with
  | offset => exact .offset (by rfl) (by rfl)
  | offsetExtended => exact .offsetExtended (by rfl) (by rfl) (by rfl)
  | offsetExtendedSf => exact .offsetExtendedSf (by rfl) (by rfl) (by rfl)

/-- With a factor of 1 the three instructions agree. -/
theorem offsetForms_iff_one :
    (∀ form : OffsetForm, form.At offsetForms (offsetForms.offset form) 1 1) ∧
    ∀ form, ∃ o', cfaStep offsetForms literalFde none
        { cfaStart .uint64 literalFde none 0 LocRegs.empty [] with
          curOffset := offsetForms.offset form }
      = .ok { cfaStart .uint64 literalFde none 0 LocRegs.empty [] with
          curOffset := o'
          locRegs := LocRegs.empty.set 1 ⟨.offset, 1, 0⟩ } :=
  ⟨offsetForms_at, (offsetForms_iff (by decide) offsetForms_at).mpr (by rfl)⟩

/-- With the factor -8 of the 64-bit platforms, `DW_CFA_offset_extended` is left with the
factored offset. -/
theorem offsetExtended_not_factored :
    (∀ form : OffsetForm, form.At offsetForms (offsetForms.offset form) 1 1) ∧
    ∀ form, (cfaStep offsetForms ⟨0, 0, 8, 0, ⟨4, 0, 0, 1, -8, 0⟩⟩ none
        { cfaStart .uint64 literalFde none 0 LocRegs.empty [] with
          curOffset := offsetForms.offset form }).toOption.map (fun st => st.locRegs 1)
      = some (some ⟨.offset, if form = .offsetExtended then 1 else -8, 0⟩) :=
  ⟨offsetForms_at, fun form => by cases form <;> rfl⟩

/-! ### Programs that do not depend on the pc -/

/-- The instruction neither moves the location nor remembers a state. -/
def CfaInstruction.steady : CfaInstruction t → Bool
  | .advanceLoc _ => false
  | .extended .setLoc _ => false
  | .extended .advanceLoc _ => false
  | .extended .rememberState _ => false
  | _ => true

/-- The offsets at which the instructions of a program start. -/
inductive ProgramOffset (t : AddressType) (s : Section) (startOffset endOffset : Word) : Word → Prop
  | start : ProgramOffset t s startOffset endOffset startOffset
  | next {o o' : Word} {i : CfaInstruction t} (ho : ProgramOffset t s startOffset endOffset o)
      (hlt : o < endOffset) (hfetch : fetch s o = .ok (i, o')) :
      ProgramOffset t s startOffset endOffset o'

/-- Every instruction of the program is steady. -/
def SteadyProgram (t : AddressType) (s : Section) (startOffset endOffset : Word) : Prop :=
  ∀ (o o' : Word) (i : CfaInstruction t), ProgramOffset t s startOffset endOffset o →
    o < endOffset → fetch s o = .ok (i, o') → i.steady = true

/-- The state with another location. -/
def CfaState.withPc (st : CfaState t) (curPc : Address t) : CfaState t :=
  { st with curPc := curPc }

/-- What an instruction does that is steady: the same from another location, with the offset and
an empty stack left as they are. `run` and `run'` are what it does from `st` and from the state
with the location `p`. -/
structure SteadyStep (st : CfaState t) (p : Address t)
    (run run' : Except Fault (CfaState t)) : Prop where
  withPc : run' = run.map (·.withPc p)
  curPc {st' : CfaState t} : run = .ok st' → st'.curPc = st.curPc
  curOffset {st' : CfaState t} : run = .ok st' → st'.curOffset = st.curOffset
  locRegState {st' : CfaState t} : run = .ok st' → st.locRegState = [] → st'.locRegState = []

section
variable (st) (p : Address t)

theorem SteadyStep.error (e : Fault) : SteadyStep st p (.error e) (.error e) :=
  ⟨rfl, nofun, nofun, nofun⟩

/-- An instruction that sets the rules. -/
theorem SteadyStep.setRules (locRegs : LocRegs) :
    SteadyStep st p (.ok { st with locRegs }) (.ok { st.withPc p with locRegs }) :=
  ⟨rfl, fun h => by cases h; rfl, fun h => by cases h; rfl, fun h => by cases h; exact id⟩

theorem changeCfa_steady (change : DwarfLocation → DwarfLocation) :
    SteadyStep st p (st.changeCfa change) ((st.withPc p).changeCfa change) := by
  unfold CfaState.changeCfa
  rw [show (st.withPc p).locRegs = st.locRegs from rfl]
  split
  · split
    · exact .setRules ..
    · exact .error ..
  · exact .error ..

theorem restore_steady (reg : Reg) (cieLocRegs : Option LocRegs) :
    SteadyStep st p (st.restore reg cieLocRegs) ((st.withPc p).restore reg cieLocRegs) := by
  unfold CfaState.restore
  split
  · exact .error ..
  · split <;> exact .setRules ..

end

variable {fde' : DwarfFde}

/-- A steady instruction, also for another FDE of the same CIE. -/
theorem execute_steady {i : CfaInstruction t} (hi : i.steady = true) (hcie : fde'.cie = fde.cie)
    (st : CfaState t) (p : Address t) :
    SteadyStep st p (execute fde cieLocRegs i st) (execute fde' cieLocRegs i (st.withPc p)) := by
  cases i with
  | advanceLoc delta => cases hi
  | offset reg offset =>
    unfold execute
    rw [hcie]
    exact .setRules ..
  | restore reg => exact restore_steady ..
  | extended handler operands =>
    unfold execute handle
    rw [hcie]
    dsimp only
    split
    all_goals first
      | exact Bool.noConfusion hi
      | exact .setRules ..
      | exact .error ..
      | exact restore_steady ..
      | exact changeCfa_steady ..
      | skip
    -- what is left is `DW_CFA_restore_state`, which pops the stack of rules
    rw [show (st.withPc p).locRegState = st.locRegState from rfl]
    cases hrules : st.locRegState with
    | nil => exact .setRules ..
    | cons top rest =>
      exact ⟨rfl, fun h => by cases h; rfl, fun h => by cases h; rfl,
        fun _ h => by simp [hrules] at h⟩

variable {startOffset : Word}

theorem cfaContinues_iff :
    cfaContinues pc endOffset st = true ↔
      st.curOffset < endOffset ∧ st.curPc.setWidth 64 ≤ pc := by
  simp [cfaContinues]

variable {info : LocationInfo}

section
variable (hprog : SteadyProgram t s startOffset endOffset)
include hprog

/-- An iteration of a steady program: the same at another location and for another FDE of the
CIE. It ends at an offset of the program. -/
theorem cfaStep_steady (hcie : fde'.cie = fde.cie)
    (ho : ProgramOffset t s startOffset endOffset st.curOffset) (hlt : st.curOffset < endOffset)
    (p : Address t) :
    cfaStep s fde' cieLocRegs (st.withPc p)
        = (cfaStep s fde cieLocRegs st).map (·.withPc p) ∧
      ∀ st', cfaStep s fde cieLocRegs st = .ok st' →
        st'.curPc = st.curPc ∧ (st.locRegState = [] → st'.locRegState = []) ∧
          ProgramOffset t s startOffset endOffset st'.curOffset := by
  unfold cfaStep
  rw [show (st.withPc p).curOffset = st.curOffset from rfl]
  cases hfetch : fetch s st.curOffset with
  | error e => exact ⟨rfl, nofun⟩
  | ok fetched =>
    obtain ⟨i, o⟩ := fetched
    have hstep : SteadyStep _ p (execute fde cieLocRegs i _) _ :=
      execute_steady (hprog _ _ i ho hlt hfetch) hcie { st with curOffset := o } p
    refine ⟨hstep.withPc, fun st' h => ⟨hstep.curPc h, hstep.locRegState h, ?_⟩⟩
    rw [hstep.curOffset h]
    exact .next ho hlt hfetch

/-- The loop over a steady program does the same for every FDE of the CIE and every pc
that is not below the location. -/
theorem cfaLoop_withPc {pc' : Word} (hcie : fde'.cie = fde.cie) (p : Address t)
    (hp : p.setWidth 64 ≤ pc') (fuel : Nat) (st : CfaState t)
    (ho : ProgramOffset t s startOffset endOffset st.curOffset) (hpc : st.curPc.setWidth 64 ≤ pc) :
    cfaLoop s fde' cieLocRegs pc' endOffset fuel (st.withPc p)
      = cfaLoop s fde cieLocRegs pc endOffset fuel st := by
  -- The two loops run side by side: only the locations differ, and they do not move.
  induction fuel generalizing st with
  | zero => rfl
  | succ fuel ih =>
    rw [cfaLoop, cfaLoop]
    by_cases hlt : st.curOffset < endOffset
    · have hcont : cfaContinues pc endOffset st = true := cfaContinues_iff.mpr ⟨hlt, hpc⟩
      have hcont' : cfaContinues pc' endOffset (st.withPc p) = true :=
        cfaContinues_iff.mpr ⟨hlt, hp⟩
      obtain ⟨hwithPc, hkept⟩ := cfaStep_steady hprog hcie ho hlt p
      rw [if_pos hcont, if_pos hcont', hwithPc]
      cases hstep : cfaStep s fde cieLocRegs st with
      | error e => rfl
      | ok st' =>
        obtain ⟨hpc', _, ho'⟩ := hkept st' hstep
        exact ih st' ho' (by rw [hpc']; exact hpc)
    · have hstop : ¬ cfaContinues pc endOffset st = true :=
        fun h => hlt (cfaContinues_iff.mp h).1
      have hstop' : ¬ cfaContinues pc' endOffset (st.withPc p) = true :=
        fun h => hlt (cfaContinues_iff.mp h).1
      rw [if_neg hstop, if_neg hstop']
      rfl

/-- The loop over a steady program that starts with an empty stack ends with one. -/
theorem cfaLoop_locRegState (fuel : Nat) (st : CfaState t)
    (ho : ProgramOffset t s startOffset endOffset st.curOffset) (hnil : st.locRegState = [])
    (h : cfaLoop s fde cieLocRegs pc endOffset fuel st = some info) :
    info.locRegState = [] := by
  induction fuel generalizing st with
  | zero => cases h
  | succ fuel ih =>
    rw [cfaLoop] at h
    by_cases hcont : cfaContinues pc endOffset st = true
    · rw [if_pos hcont] at h
      cases hstep : cfaStep s fde cieLocRegs st with
      | error e =>
        rw [hstep] at h
        cases h
        exact hnil
      | ok st' =>
        rw [hstep] at h
        obtain ⟨_, hnil', ho'⟩ :=
          (cfaStep_steady hprog rfl ho (cfaContinues_iff.mp hcont).1 st.curPc).2 st' hstep
        exact ih st' ho' (hnil' hnil) h
    · rw [if_neg hcont] at h
      cases h
      exact hnil

end

variable {fuel : Nat}

/-- More fuel does not change what the loop returns. -/
theorem cfaLoop_mono {fuel' : Nat} (hle : fuel ≤ fuel') (st : CfaState t)
    (h : cfaLoop s fde cieLocRegs pc endOffset fuel st = some info) :
    cfaLoop s fde cieLocRegs pc endOffset fuel' st = some info := by
  induction fuel generalizing fuel' st with
  | zero => cases h
  | succ fuel ih =>
    obtain ⟨fuel', rfl⟩ : ∃ k, fuel' = k + 1 := ⟨fuel' - 1, by omega⟩
    rw [cfaLoop] at h ⊢
    split at h
    · rename_i hcont
      rw [if_pos hcont]
      split at h
      · rename_i st' hstep
        exact ih (by omega) st' h
      · exact h
    · rename_i hcont
      rw [if_neg hcont]
      exact h

/-! ### The cache -/

/-- The program of the CIE of an FDE, as a lookup runs it that does not find it in the
cache. -/
def cieLocationInfo (t : AddressType) (sec : DwarfSection) (fde : DwarfFde) (fuel : Nat)
    (pc : Word) : Option LocationInfo :=
  getLocationInfo t sec.memory fde none fuel pc fde.cie.cfaInstructionsOffset
    fde.cie.cfaInstructionsEnd .empty []

/-- A lookup that does not make the rules of the CIE depend on it: the pc is not below
the start of the FDE, and the program of the CIE is steady. -/
structure SteadyLookup (t : AddressType) (sec : DwarfSection) (f : SectionFde sec)
    (pc : Word) : Prop where
  start_le : (f.fde.pcStart.setWidth t.bits).setWidth 64 ≤ pc
  steady : SteadyProgram t sec.memory f.fde.cie.cfaInstructionsOffset
    f.fde.cie.cfaInstructionsEnd

/-- What `GetCfaLocationInfo` returns for a state of the cache. -/
def LookupReturns (t : AddressType) (sec : DwarfSection) (cache : CieLocRegs)
    (fde : DwarfFde) (pc : Word) (location : CfaLocation) : Prop :=
  ∃ fuel cache', getCfaLocationInfo t sec fuel cache fde pc = some (location, cache')

/-- The caches that steady lookups on a new section lead to. -/
inductive SteadyHistory (t : AddressType) (sec : DwarfSection) : CieLocRegs → Prop
  | new : SteadyHistory t sec .empty
  | lookup {cache cache' : CieLocRegs} {f : SectionFde sec} {pc : Word} {fuel : Nat}
      {location : CfaLocation} (h : SteadyHistory t sec cache)
      (hl : SteadyLookup t sec f pc)
      (hret : getCfaLocationInfo t sec fuel cache f.fde pc = some (location, cache')) :
      SteadyHistory t sec cache'

section

variable {sec : DwarfSection} {f : SectionFde sec}

/-- Two steady lookups with one CIE run its program to the same end. -/
theorem cieLocationInfo_eq {f' : SectionFde sec} {pc' : Word} (hl : SteadyLookup t sec f pc)
    (hl' : SteadyLookup t sec f' pc') (heq : f'.fde.cieOffset = f.fde.cieOffset) (fuel : Nat) :
    cieLocationInfo t sec f'.fde fuel pc' = cieLocationInfo t sec f.fde fuel pc := by
  have hcie : f'.fde.cie = f.fde.cie := by rw [f.cie_eq, f'.cie_eq, heq]
  unfold cieLocationInfo
  rw [hcie]
  exact cfaLoop_withPc hl.steady hcie _ hl'.start_le fuel
    (cfaStart t f.fde none _ .empty []) .start hl.start_le

/-- A steady program of a CIE leaves nothing on the stack. -/
theorem cieLocationInfo_locRegState (hl : SteadyLookup t sec f pc)
    (h : cieLocationInfo t sec f.fde fuel pc = some info) : info.locRegState = [] :=
  cfaLoop_locRegState hl.steady fuel _ .start rfl h

/-- Every entry of the cache is what the program of its CIE gives, whichever steady
lookup runs it. -/
def CacheExact (t : AddressType) (sec : DwarfSection) (cache : CieLocRegs) : Prop :=
  ∀ (f : SectionFde sec) (pc : Word) (locRegs : LocRegs), SteadyLookup t sec f pc →
    cache f.fde.cieOffset = some locRegs →
      ∃ fuel, cieLocationInfo t sec f.fde fuel pc = some ⟨.ok (), locRegs, []⟩

variable {cache : CieLocRegs} {location : CfaLocation} {cache' : CieLocRegs}

/-- A lookup leaves the cache as it is, or adds what the program of the CIE gives. -/
theorem getCfaLocationInfo_cache
    (h : getCfaLocationInfo t sec fuel cache fde pc = some (location, cache')) :
    cache' = cache ∨ ∃ locRegs locRegState,
      cieLocationInfo t sec fde fuel pc = some ⟨.ok (), locRegs, locRegState⟩ ∧
        cache' = cache.set fde.cieOffset locRegs := by
  unfold getCfaLocationInfo at h
  split at h
  · split at h
    · cases h
    · cases h
      exact .inl rfl
  · split at h
    · cases h
    · cases h
      exact .inl rfl
    · rename_i locRegs locRegState hcie
      split at h
      · cases h
      · cases h
        exact .inr ⟨locRegs, locRegState, hcie, rfl⟩

/-- One steady lookup keeps the cache exact. -/
theorem CacheExact.lookup (hcache : CacheExact t sec cache) (hl : SteadyLookup t sec f pc)
    (h : getCfaLocationInfo t sec fuel cache f.fde pc = some (location, cache')) :
    CacheExact t sec cache' := by
  rcases getCfaLocationInfo_cache h with rfl | ⟨locRegs, locRegState, hcie, rfl⟩
  · exact hcache
  · intro f' pc' m hl' hm
    unfold CieLocRegs.set at hm
    split at hm
    · rename_i heq
      cases hm
      have hnil : locRegState = [] := cieLocationInfo_locRegState hl hcie
      exact ⟨fuel, by rw [cieLocationInfo_eq hl hl' heq, hcie, hnil]⟩
    · exact hcache f' pc' m hl' hm

/-- The cache is exact after every history of steady lookups. -/
theorem SteadyHistory.cacheExact (h : SteadyHistory t sec cache) : CacheExact t sec cache := by
  induction h with
  | new => intro f pc locRegs _ hm; cases hm
  | lookup _ hl hret ih => exact ih.lookup hl hret

theorem fdeLocationInfo_mono {fuel' : Nat} (hle : fuel ≤ fuel') {cieLocRegs locRegs : LocRegs}
    {locRegState : List LocRegs}
    (h : fdeLocationInfo t sec fde fuel pc cieLocRegs locRegs locRegState = some location) :
    fdeLocationInfo t sec fde fuel' pc cieLocRegs locRegs locRegState = some location := by
  unfold fdeLocationInfo at h ⊢
  split at h
  · cases h
  · rename_i info hinfo
    rw [show getLocationInfo t sec.memory fde (some cieLocRegs) fuel' pc
      fde.cfaInstructionsOffset fde.cfaInstructionsEnd locRegs locRegState = some info
      from cfaLoop_mono hle _ hinfo]
    exact h

/-- The program of the FDE starts from the rules of the CIE, whether they are in the map
already or not. -/
theorem fdeLocationInfo_overlay {cieLocRegs : LocRegs} {locRegState : List LocRegs} :
    fdeLocationInfo t sec fde fuel pc cieLocRegs cieLocRegs locRegState
      = fdeLocationInfo t sec fde fuel pc cieLocRegs .empty locRegState := by
  unfold fdeLocationInfo getLocationInfo cfaStart
  simp

/-- A lookup that finds the rules of the CIE in the cache. -/
theorem lookupReturns_hit {cieLocRegs : LocRegs} (hhit : cache fde.cieOffset = some cieLocRegs)
    (location : CfaLocation) :
    LookupReturns t sec cache fde pc location ↔
      ∃ fuel, fdeLocationInfo t sec fde fuel pc cieLocRegs .empty [] = some location := by
  unfold LookupReturns getCfaLocationInfo
  simp only [hhit]
  constructor
  · rintro ⟨fuel, cache', h⟩
    split at h
    · cases h
    · rename_i location' hloc
      cases h
      exact ⟨fuel, hloc⟩
  · rintro ⟨fuel, h⟩
    exact ⟨fuel, cache, by rw [h]⟩

/-- A lookup that has to run the program of the CIE. -/
theorem lookupReturns_miss (hmiss : cache fde.cieOffset = none) {fuel₀ : Nat} {cieLocRegs : LocRegs}
    (hcie : cieLocationInfo t sec fde fuel₀ pc = some ⟨.ok (), cieLocRegs, []⟩)
    (location : CfaLocation) :
    LookupReturns t sec cache fde pc location ↔
      ∃ fuel, fdeLocationInfo t sec fde fuel pc cieLocRegs .empty [] = some location := by
  have hrun : ∀ fuel info, cieLocationInfo t sec fde fuel pc = some info →
      info = ⟨.ok (), cieLocRegs, []⟩ := by
    intro fuel info h
    have h₁ := cfaLoop_mono (Nat.le_max_left fuel fuel₀) _ h
    have h₂ := cfaLoop_mono (Nat.le_max_right fuel fuel₀) _ hcie
    exact Option.some.inj (h₁.symm.trans h₂)
  unfold LookupReturns getCfaLocationInfo
  simp only [hmiss]
  constructor
  · rintro ⟨fuel, cache', h⟩
    split at h
    · cases h
    · rename_i hinfo
      exact nomatch hrun fuel _ hinfo
    · rename_i locRegs locRegState hinfo
      cases hrun fuel _ hinfo
      split at h
      · cases h
      · rename_i location' hloc
        cases h
        exact ⟨fuel, fdeLocationInfo_overlay.symm.trans hloc⟩
  · rintro ⟨fuel, h⟩
    have hcie' : getLocationInfo t sec.memory fde none (max fuel fuel₀) pc
        fde.cie.cfaInstructionsOffset fde.cie.cfaInstructionsEnd .empty []
          = some ⟨.ok (), cieLocRegs, []⟩ :=
      cfaLoop_mono (Nat.le_max_right fuel fuel₀) _ hcie
    have hfde := fdeLocationInfo_mono (Nat.le_max_left fuel fuel₀) h
    rw [← fdeLocationInfo_overlay] at hfde
    exact ⟨max fuel fuel₀, cache.set fde.cieOffset cieLocRegs, by
      simp only [hcie', hfde]⟩

/-- A lookup that misses does the same whatever else is in the cache. -/
theorem lookupReturns_of_miss (hmiss : cache fde.cieOffset = none)
    (hmiss' : cache' fde.cieOffset = none) (h : LookupReturns t sec cache fde pc location) :
    LookupReturns t sec cache' fde pc location := by
  obtain ⟨fuel, _, h⟩ := h
  unfold getCfaLocationInfo at h
  simp only [hmiss] at h
  refine ⟨fuel, ?_⟩
  unfold getCfaLocationInfo
  simp only [hmiss']
  split at h
  · cases h
  · cases h
    exact ⟨cache', rfl⟩
  · split at h
    · cases h
    · cases h
      exact ⟨_, rfl⟩

end

/-- After every history of steady lookups, a steady lookup returns the same flag and the
same rules as on a new section. -/
theorem getCfaLocationInfo_eq_fresh {sec : DwarfSection} {cache : CieLocRegs}
    (h : SteadyHistory t sec cache) {f : SectionFde sec} {pc : Word}
    (hl : SteadyLookup t sec f pc) (location : CfaLocation) :
    LookupReturns t sec cache f.fde pc location ↔
      LookupReturns t sec CieLocRegs.empty f.fde pc location := by
  cases hentry : cache f.fde.cieOffset with
  | none => exact ⟨lookupReturns_of_miss hentry rfl, lookupReturns_of_miss rfl hentry⟩
  | some cieLocRegs =>
    obtain ⟨fuel, hcie⟩ := h.cacheExact f pc cieLocRegs hl hentry
    rw [lookupReturns_hit hentry, lookupReturns_miss rfl hcie]

/-- The CIE at offset 0 has `DW_CFA_def_cfa` for a program. -/
def steadySection : DwarfSection where
  memory := ⟨[0x0c, 0x07, 0x08], by decide⟩
  getCie _ := ⟨4, 0, 3, 1, 1, 0⟩

/-- An FDE of `steadySection` with an empty program. -/
def steadyFde : SectionFde steadySection := ⟨⟨0, 3, 3, 0, ⟨4, 0, 3, 1, 1, 0⟩⟩, rfl⟩

/-- The program of `steadySection` has one instruction. -/
theorem steadySection_offset {o : Word}
    (h : ProgramOffset .uint64 steadySection.memory 0 3 o) : o = 0 ∨ o = 3 := by
  induction h with
  | start => exact .inl rfl
  | next _ hlt hfetch ih =>
    rcases ih with rfl | rfl
    · cases hfetch
      exact .inr rfl
    · exact absurd hlt (by decide)

theorem steadyFde_steady (pc : Word) : SteadyLookup .uint64 steadySection steadyFde pc where
  start_le := BitVec.le_def.mpr (Nat.zero_le _)
  steady o o' i ho hlt hfetch := by
    rcases steadySection_offset ho with rfl | rfl
    · cases hfetch
      rfl
    · exact absurd hlt (by decide)

/-- The rules of `steadySection`. -/
def steadyRules : LocRegs := LocRegs.empty.set cfaReg ⟨.register, 7, 8⟩

/-- The first lookup in `steadySection`, for pc 0. -/
theorem steadySection_lookup :
    getCfaLocationInfo .uint64 steadySection 2 CieLocRegs.empty steadyFde.fde 0
      = some (⟨.ok (), steadyRules.overlay steadyRules⟩, CieLocRegs.empty.set 0 steadyRules) := rfl

/-- Witness for `getCfaLocationInfo_eq_fresh`: the cache after the lookup for pc 0. -/
theorem getCfaLocationInfo_eq_fresh_steadySection :
    SteadyHistory .uint64 steadySection (CieLocRegs.empty.set 0 steadyRules) ∧
    ∀ location,
      LookupReturns .uint64 steadySection (CieLocRegs.empty.set 0 steadyRules) steadyFde.fde 5
        location ↔
      LookupReturns .uint64 steadySection CieLocRegs.empty steadyFde.fde 5 location :=
  have h := .lookup .new (steadyFde_steady 0) steadySection_lookup
  ⟨h, getCfaLocationInfo_eq_fresh h (steadyFde_steady 5)⟩

/-- The program of the CIE advances the location before it defines the CFA. -/
def advancingSection : DwarfSection where
  memory := ⟨[0x41, 0x0c, 0x07, 0x08], by decide⟩
  getCie _ := ⟨4, 0, 4, 1, 1, 0⟩

/-- An FDE of `advancingSection` that starts at 0 and has an empty program. -/
def advancingFde : SectionFde advancingSection := ⟨⟨0, 4, 4, 0, ⟨4, 0, 4, 1, 1, 0⟩⟩, rfl⟩

/-- A lookup for pc 0 leaves the rules without the CFA in the cache, where a lookup for
pc 5 finds them; on a new section the same lookup has a rule for the CFA. -/
theorem advancingSection_depends_on_history :
    ∃ first cache later fresh cache' cache'',
      getCfaLocationInfo .uint64 advancingSection 3 CieLocRegs.empty advancingFde.fde 0
        = some (first, cache) ∧
      getCfaLocationInfo .uint64 advancingSection 3 cache advancingFde.fde 5
        = some (later, cache') ∧
      getCfaLocationInfo .uint64 advancingSection 3 CieLocRegs.empty advancingFde.fde 5
        = some (fresh, cache'') ∧
      later.locRegs cfaReg = none ∧ fresh.locRegs cfaReg = some ⟨.register, 7, 8⟩ :=
  ⟨_, _, _, _, _, _, rfl, rfl, rfl, rfl, rfl⟩

end AndroidCore.Libunwindstack
