import AndroidCore.Libunwindstack.DwarfMemory

/-!
# `AndroidCore.Libunwindstack.DwarfCfa`: the interpreter of call frame instructions

`DwarfCfa::GetLocationInfo` with its handlers and its two tables. A program is a range
of offsets of the section. Each iteration reads an opcode byte: its two high bits select
one of three short instructions, which carry an operand in the low bits, or say that the
low bits are an index into the tables.

`fetch` reads the instruction with its operands, `execute` does what it says. Both fail
before they change a rule, so that a failed iteration leaves the rules as they were.

A block operand is skipped by adding its length to the offset, modulo `2 ^ 64`. A length
close to `2 ^ 64` moves the reader back, so that a program need not end: the loop takes
fuel.
-/

namespace AndroidCore.Libunwindstack

/-! ### The rules for the registers -/

/-- `DwarfLocationEnum`. -/
inductive DwarfLocationEnum where
  | invalid
  | undefined
  | offset
  | valOffset
  | register
  | expression
  | valExpression
deriving DecidableEq, Repr

/-- `DwarfLocation`: the two elements of `values` are `value0` and `value1`. -/
structure DwarfLocation where
  type : DwarfLocationEnum
  value0 : Word := 0
  value1 : Word := 0
deriving DecidableEq, Repr

/-- The keys of `dwarf_loc_regs_t`. -/
abbrev Reg := BitVec 16

/-- `CFA_REG`. -/
def cfaReg : Reg := 0xffff

/-- `dwarf_loc_regs_t`. -/
abbrev LocRegs := Reg → Option DwarfLocation

namespace LocRegs

/-- The map with no rule. -/
def empty : LocRegs := fun _ => none

/-- `loc_regs[reg] = loc`. -/
def set (m : LocRegs) (reg : Reg) (loc : DwarfLocation) : LocRegs :=
  fun r => if r = reg then some loc else m r

/-- `loc_regs->erase(reg)`. -/
def erase (m : LocRegs) (reg : Reg) : LocRegs :=
  fun r => if r = reg then none else m r

/-- The map after every entry of `cie` has been copied into it. -/
def overlay (cie m : LocRegs) : LocRegs :=
  fun r => match cie r with
    | some loc => some loc
    | none => m r

@[simp] theorem set_self (m : LocRegs) (reg : Reg) (loc : DwarfLocation) :
    m.set reg loc reg = some loc := if_pos rfl

@[simp] theorem overlay_empty (cie : LocRegs) : cie.overlay empty = cie := by
  funext r
  unfold overlay empty
  cases cie r <;> rfl

@[simp] theorem overlay_self (m : LocRegs) : m.overlay m = m := by
  funext r
  unfold overlay
  cases m r <;> rfl

end LocRegs

/-- `DwarfCie`, with what the two interpreters use of it. -/
structure DwarfCie where
  version : UInt8
  cfaInstructionsOffset : Word
  cfaInstructionsEnd : Word
  codeAlignmentFactor : Word
  dataAlignmentFactor : Word
  returnAddressRegister : Word
deriving DecidableEq, Repr

/-- `DwarfFde`, with what the lookup of the rules uses of it. -/
structure DwarfFde where
  cieOffset : Word
  cfaInstructionsOffset : Word
  cfaInstructionsEnd : Word
  pcStart : Word
  cie : DwarfCie
deriving DecidableEq, Repr

/-! ### Instructions -/

/-- The handlers `DwarfCfa::kCallbackTable` refers to. -/
inductive CfaHandler where
  | nop
  | setLoc
  | advanceLoc
  | offset
  | restore
  | undefined
  | sameValue
  | register
  | rememberState
  | restoreState
  | defCfa
  | defCfaRegister
  | defCfaOffset
  | defCfaExpression
  | expression
  | offsetExtendedSf
  | defCfaSf
  | defCfaOffsetSf
  | valOffset
  | valOffsetSf
  | valExpression
  | gnuNegativeOffsetExtended
deriving DecidableEq, Repr

/-- `kCallbackTable` and the operands of `DwarfCfaInfo::kTable`; `none` is an illegal
instruction. -/
def cfaTable : Nat → Option (CfaHandler × List Encoding)
  | 0x00 => some (.nop, [])
  | 0x01 => some (.setLoc, [.absptr])
  | 0x02 => some (.advanceLoc, [.udata1])
  | 0x03 => some (.advanceLoc, [.udata2])
  | 0x04 => some (.advanceLoc, [.udata4])
  | 0x05 => some (.offset, [.uleb128, .uleb128])
  | 0x06 => some (.restore, [.uleb128])
  | 0x07 => some (.undefined, [.uleb128])
  | 0x08 => some (.sameValue, [.uleb128])
  | 0x09 => some (.register, [.uleb128, .uleb128])
  | 0x0a => some (.rememberState, [])
  | 0x0b => some (.restoreState, [])
  | 0x0c => some (.defCfa, [.uleb128, .uleb128])
  | 0x0d => some (.defCfaRegister, [.uleb128])
  | 0x0e => some (.defCfaOffset, [.uleb128])
  | 0x0f => some (.defCfaExpression, [.block])
  | 0x10 => some (.expression, [.uleb128, .block])
  | 0x11 => some (.offsetExtendedSf, [.uleb128, .sleb128])
  | 0x12 => some (.defCfaSf, [.uleb128, .sleb128])
  | 0x13 => some (.defCfaOffsetSf, [.sleb128])
  | 0x14 => some (.valOffset, [.uleb128, .uleb128])
  | 0x15 => some (.valOffsetSf, [.uleb128, .sleb128])
  | 0x16 => some (.valExpression, [.uleb128, .block])
  | 0x2e => some (.nop, [.uleb128])
  | 0x2f => some (.gnuNegativeOffsetExtended, [.uleb128, .uleb128])
  | _ => none

/-- An instruction with its operands. -/
inductive CfaInstruction (t : AddressType) where
  /-- The high bits are 1: `DW_CFA_advance_loc`. -/
  | advanceLoc (delta : Word)
  /-- The high bits are 2: `DW_CFA_offset`. -/
  | offset (reg : Reg) (offset : Word)
  /-- The high bits are 3: `DW_CFA_restore`. -/
  | restore (reg : Reg)
  /-- The high bits are 0. -/
  | extended (handler : CfaHandler) (operands : List (Address t))

section

variable {t : AddressType}

/-- The operands of an instruction, read from the offset on. -/
def readOperands (s : Section) : List Encoding → Word → Except ReadFailure (List (Address t) × Word)
  | [], curOffset => .ok ([], curOffset)
  | .block :: rest, curOffset => do
    let (blockLength, curOffset) ← s.readULEB128 curOffset
    -- The reader moves behind the block.
    let (operands, curOffset) ← readOperands s rest (curOffset + blockLength)
    return (blockLength.setWidth t.bits :: operands, curOffset)
  | encoding :: rest, curOffset => do
    let (value, curOffset) ← s.readEncodedValue t encoding curOffset
    let (operands, curOffset) ← readOperands s rest curOffset
    return (value.setWidth t.bits :: operands, curOffset)

/-- The instruction at an offset, and the offset behind it. -/
def fetch (s : Section) (curOffset : Word) : Except Fault (CfaInstruction t × Word) :=
  match s.readBytes curOffset 1 with
  | .ok (cfaValue :: _, curOffset) =>
    let cfaLow := cfaValue.toNat % 64
    match cfaValue.toNat / 64 with
    | 1 => .ok (.advanceLoc (BitVec.ofNat 64 cfaLow), curOffset)
    | 2 => do
      let (offset, curOffset) ← orFault (s.readULEB128 curOffset)
      return (.offset (BitVec.ofNat 16 cfaLow) offset, curOffset)
    | 3 => .ok (.restore (BitVec.ofNat 16 cfaLow), curOffset)
    | _ =>
      match cfaTable cfaLow with
      | none => .error (.error .illegalValue)
      | some (handler, encodings) => do
        let (operands, curOffset) ← orFault (readOperands s encodings curOffset)
        return (.extended handler operands, curOffset)
  | .ok ([], _) => .error .undefined
  | .error e => .error e.toFault

/-- The state of the interpreter: `cur_offset_` of the reader, `cur_pc_`, the map that is
being filled in, and the stack `loc_reg_state_`. -/
structure CfaState (t : AddressType) where
  curOffset : Word
  curPc : Address t
  locRegs : LocRegs
  locRegState : List LocRegs

/-- `static_cast<SignedType>(operand) * data_alignment_factor`, kept in a `SignedType`
and converted to `uint64_t`. -/
def factored (operand : Address t) (dataAlignmentFactor : Word) : Word :=
  ((operand.signExtend 64 * dataAlignmentFactor).setWidth t.bits).signExtend 64

namespace CfaState

/-- `(*loc_regs)[reg] = loc`, with a key of type `AddressType`. -/
def setRule (st : CfaState t) (reg : Address t) (loc : DwarfLocation) : CfaState t :=
  { st with locRegs := st.locRegs.set (reg.setWidth 16) loc }

/-- `cur_pc_ += delta * code_alignment_factor`. -/
def advance (st : CfaState t) (delta : Word) (fde : DwarfFde) : CfaState t :=
  { st with
    curPc := (st.curPc.setWidth 64 + delta * fde.cie.codeAlignmentFactor).setWidth t.bits }

/-- The rule of the CIE for a register, or none if it has none. -/
def restore (st : CfaState t) (reg : Reg) (cieLocRegs : Option LocRegs) :
    Except Fault (CfaState t) :=
  match cieLocRegs with
  -- Restore while processing the CIE.
  | none => .error (.error .illegalState)
  | some cie =>
    match cie reg with
    | none => .ok { st with locRegs := st.locRegs.erase reg }
    | some loc => .ok { st with locRegs := st.locRegs.set reg loc }

/-- A change of the rule for the CFA, which has to be a register rule already. -/
def changeCfa (st : CfaState t) (change : DwarfLocation → DwarfLocation) :
    Except Fault (CfaState t) :=
  match st.locRegs cfaReg with
  | some loc =>
    if loc.type = .register then
      .ok { st with locRegs := st.locRegs.set cfaReg (change loc) }
    else .error (.error .illegalState)
  | none => .error (.error .illegalState)

end CfaState

/-- The handlers. The number of operands is that of the table; with fewer, `operands_`
would be read out of its range. -/
def handle (fde : DwarfFde) (cieLocRegs : Option LocRegs) (handler : CfaHandler)
    (operands : List (Address t)) (st : CfaState t) : Except Fault (CfaState t) :=
  let factor := fde.cie.dataAlignmentFactor
  match handler, operands with
  | .nop, _ => .ok st
  | .setLoc, [newPc] => .ok { st with curPc := newPc }
  | .advanceLoc, [delta] => .ok (st.advance (delta.setWidth 64) fde)
  | .offset, [reg, offset] => .ok (st.setRule reg ⟨.offset, offset.setWidth 64, 0⟩)
  | .restore, [reg] => st.restore (reg.setWidth 16) cieLocRegs
  | .undefined, [reg] => .ok (st.setRule reg ⟨.undefined, 0, 0⟩)
  | .sameValue, [reg] => .ok { st with locRegs := st.locRegs.erase (reg.setWidth 16) }
  | .register, [reg, regDst] => .ok (st.setRule reg ⟨.register, regDst.setWidth 64, 0⟩)
  | .rememberState, _ => .ok { st with locRegState := st.locRegs :: st.locRegState }
  | .restoreState, _ =>
    match st.locRegState with
    -- Attempt to restore without remember: only a warning.
    | [] => .ok st
    | top :: rest => .ok { st with locRegs := top, locRegState := rest }
  | .defCfa, [reg, offset] =>
    .ok { st with
      locRegs := st.locRegs.set cfaReg ⟨.register, reg.setWidth 64, offset.setWidth 64⟩ }
  | .defCfaRegister, [reg] => st.changeCfa fun loc => { loc with value0 := reg.setWidth 64 }
  | .defCfaOffset, [offset] =>
    st.changeCfa fun loc => { loc with value1 := offset.setWidth 64 }
  | .defCfaExpression, [blockLength] =>
    .ok { st with
      locRegs := st.locRegs.set cfaReg ⟨.expression, blockLength.setWidth 64, st.curOffset⟩ }
  | .expression, [reg, blockLength] =>
    .ok (st.setRule reg ⟨.expression, blockLength.setWidth 64, st.curOffset⟩)
  | .offsetExtendedSf, [reg, offset] =>
    .ok (st.setRule reg ⟨.offset, factored offset factor, 0⟩)
  | .defCfaSf, [reg, offset] =>
    .ok { st with
      locRegs := st.locRegs.set cfaReg ⟨.register, reg.setWidth 64, factored offset factor⟩ }
  | .defCfaOffsetSf, [offset] =>
    st.changeCfa fun loc => { loc with value1 := factored offset factor }
  | .valOffset, [reg, offset] | .valOffsetSf, [reg, offset] =>
    .ok (st.setRule reg ⟨.valOffset, factored offset factor, 0⟩)
  | .valExpression, [reg, blockLength] =>
    .ok (st.setRule reg ⟨.valExpression, blockLength.setWidth 64, st.curOffset⟩)
  | .gnuNegativeOffsetExtended, [reg, offset] =>
    .ok (st.setRule reg ⟨.offset, (-offset).signExtend 64, 0⟩)
  | _, _ => .error .undefined

/-- What an instruction does. -/
def execute (fde : DwarfFde) (cieLocRegs : Option LocRegs) (i : CfaInstruction t)
    (st : CfaState t) : Except Fault (CfaState t) :=
  match i with
  | .advanceLoc delta => .ok (st.advance delta fde)
  | .offset reg offset =>
    .ok { st with
      locRegs := st.locRegs.set reg
        ⟨.offset, factored (offset.setWidth t.bits) fde.cie.dataAlignmentFactor, 0⟩ }
  | .restore reg => st.restore reg cieLocRegs
  | .extended handler operands => handle fde cieLocRegs handler operands st

/-- One iteration of the loop of `GetLocationInfo`. -/
def cfaStep (s : Section) (fde : DwarfFde) (cieLocRegs : Option LocRegs)
    (st : CfaState t) : Except Fault (CfaState t) :=
  match fetch s st.curOffset with
  | .ok (i, curOffset) => execute fde cieLocRegs i { st with curOffset := curOffset }
  | .error e => .error e

/-- What `GetLocationInfo` leaves behind: whether it returns true, the map of the
caller, and the stack of the interpreter. -/
structure LocationInfo where
  result : Except Fault Unit
  locRegs : LocRegs
  locRegState : List LocRegs

/-- The condition of the loop. -/
def cfaContinues (pc endOffset : Word) (st : CfaState t) : Bool :=
  st.curOffset < endOffset && st.curPc.setWidth 64 ≤ pc

/-- The loop of `GetLocationInfo`; `none` if it has not ended after `fuel` iterations. -/
def cfaLoop (s : Section) (fde : DwarfFde) (cieLocRegs : Option LocRegs)
    (pc endOffset : Word) : Nat → CfaState t → Option LocationInfo
  | 0, _ => none
  | fuel + 1, st =>
    if cfaContinues pc endOffset st then
      match cfaStep s fde cieLocRegs st with
      | .ok st => cfaLoop s fde cieLocRegs pc endOffset fuel st
      | .error e => some ⟨.error e, st.locRegs, st.locRegState⟩
    else some ⟨.ok (), st.locRegs, st.locRegState⟩

/-- The state in which the loop of `GetLocationInfo` starts. -/
def cfaStart (t : AddressType) (fde : DwarfFde) (cieLocRegs : Option LocRegs)
    (startOffset : Word) (locRegs : LocRegs) (locRegState : List LocRegs) : CfaState t where
  curOffset := startOffset
  curPc := fde.pcStart.setWidth t.bits
  locRegs := match cieLocRegs with
    | some cie => cie.overlay locRegs
    | none => locRegs
  locRegState := locRegState

/-- `DwarfCfa::GetLocationInfo`, on an interpreter whose stack is `locRegState`. -/
def getLocationInfo (t : AddressType) (s : Section) (fde : DwarfFde)
    (cieLocRegs : Option LocRegs) (fuel : Nat) (pc startOffset endOffset : Word)
    (locRegs : LocRegs) (locRegState : List LocRegs) : Option LocationInfo :=
  cfaLoop s fde cieLocRegs pc endOffset fuel
    (cfaStart t fde cieLocRegs startOffset locRegs locRegState)

end

end AndroidCore.Libunwindstack
