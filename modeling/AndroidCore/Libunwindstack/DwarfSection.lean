import AndroidCore.Libunwindstack.DwarfCfa
import AndroidCore.Libunwindstack.DwarfOp

/-!
# `AndroidCore.Libunwindstack.DwarfSection`: the rules of a frame, and their evaluation

From `DwarfSection.cpp`: `EvalExpression`, `Eval`, which computes the registers of the
caller from the rules, and `GetCfaLocationInfo`, which finds the rules for a pc and keeps
the rules of each CIE in a cache.

`Eval` goes through the rules in the order of a hash map. The order is an argument here,
any list of the registers that have a rule.
-/

namespace AndroidCore.Libunwindstack

open Lib

section

variable {t : AddressType}

/-! ### Expressions -/

/-- The range of the section that `EvalExpression` passes to `DwarfOp::Eval`. -/
def expressionRange (loc : DwarfLocation) : Word × Word :=
  (loc.value1, loc.value1 + loc.value0)

/-- `DwarfSectionImpl::EvalExpression`. Its `DwarfOp` is given no registers. -/
def evalExpression (s : Section) (m : Memory) (loc : DwarfLocation) (version : UInt8) :
    Except Fault (Address t) :=
  match opEval s m none (expressionRange loc).1 (expressionRange loc).2 version with
  | .error e => .error e
  | .ok st =>
    match st.stack with
    | [] => .error (.error .illegalState)
    | top :: _ => if st.isRegister then .error (.error .notImplemented) else .ok top

/-! ### The registers of the caller -/

/-- An order in which the entries of a map can be visited. -/
structure Iteration (locRegs : LocRegs) where
  order : List Reg
  nodup : order.Nodup
  mem_iff : ∀ reg, reg ∈ order ↔ (locRegs reg).isSome

/-- The value of a word in the memory of the process. -/
def readAddress (m : Memory) (addr : Word) : Option (Address t) :=
  match m.read addr t.size with
  | .ok bs => some (BitVec.ofNat t.bits (leValue bs))
  | .error _ => none

/-- The first part of `Eval`: the CFA. -/
def evalCfa (s : Section) (m : Memory) (cie : DwarfCie) (locRegs : LocRegs)
    (regs : RegsImpl t) : Except Fault (Address t) :=
  match locRegs cfaReg with
  | none => .error (.error .cfaNotDefined)
  | some loc =>
    match loc.type with
    | .register =>
      match regs.regs[loc.value0.toNat]? with
      | none => .error (.error .illegalValue)
      | some value =>
        -- Without a rule of its own the stack pointer still has its current value.
        let cfa := if regs.spReg.setWidth 64 = loc.value0 ∧ locRegs regs.spReg = none
          then regs.sp else value
        .ok (cfa + loc.value1.setWidth t.bits)
    | .expression =>
      match (evalExpression s m loc cie.version : Except Fault (Address t)) with
      | .error e => .error e
      | .ok value =>
        match readAddress m (value.setWidth 64) with
        | some cfa => .ok cfa
        | none => .error (.error .memoryInvalid)
    | .valExpression => evalExpression s m loc cie.version
    | _ => .error (.error .illegalValue)

/-- What one rule does to its register, and whether `Eval` fails there. -/
structure RuleEffect (t : AddressType) where
  written : Option (Address t)
  fault : Option Fault

namespace RuleEffect

/-- The rule writes the value. -/
def writes (value : Address t) : RuleEffect t := ⟨some value, none⟩

/-- `Eval` fails at the rule before the register is touched. -/
def fails (e : Fault) : RuleEffect t := ⟨none, some e⟩

/-- `regular_memory->Read(addr, &(*cur_regs)[reg], sizeof(AddressType))`: a read that
fails can have replaced the first bytes of the register. -/
def reads (m : Memory) (addr : Word) (old : Address t) : RuleEffect t :=
  match m.read addr t.size with
  | .ok bs => writes (BitVec.ofNat t.bits (leValue bs))
  | .error bs =>
    ⟨some (BitVec.ofNat t.bits (leValue (bs ++ (leBytes t.size old.toNat).drop bs.length))),
      some (.error .memoryInvalid)⟩

end RuleEffect

/-- What a rule does, for a register below `total_regs` whose value is `old`. -/
def ruleEffect (s : Section) (m : Memory) (cie : DwarfCie) (locRegs : LocRegs)
    (cfa : Address t) (regs : RegsImpl t) (old : Address t) (loc : DwarfLocation) :
    RuleEffect t :=
  match loc.type with
  | .offset => .reads m (cfa.setWidth 64 + loc.value0) old
  | .valOffset => .writes (cfa + loc.value0.setWidth t.bits)
  | .register =>
    let curReg : Reg := loc.value0.setWidth 16
    match regs.regs[curReg.toNat]? with
    | none => .fails (.error .illegalValue)
    | some value =>
      -- A register that has a rule itself would be a double indirection.
      if (locRegs curReg).isSome then .fails (.error .illegalState)
      else .writes (value + loc.value1.setWidth t.bits)
  | .expression =>
    match (evalExpression s m loc cie.version : Except Fault (Address t)) with
    | .error e => .fails e
    | .ok value => .reads m (value.setWidth 64) old
  | .valExpression =>
    match (evalExpression s m loc cie.version : Except Fault (Address t)) with
    | .error e => .fails e
    | .ok value => .writes value
  | .undefined | .invalid => ⟨none, none⟩

/-- The body of the loop over the rules. The CFA is handled already, and unknown
registers are skipped. -/
def registerEffect (s : Section) (m : Memory) (cie : DwarfCie) (locRegs : LocRegs)
    (cfa : Address t) (regs : RegsImpl t) (reg : Reg) : RuleEffect t :=
  if reg = cfaReg then ⟨none, none⟩
  else
    match regs.regs[reg.toNat]?, locRegs reg with
    | some old, some loc => ruleEffect s m cie locRegs cfa regs old loc
    | _, _ => ⟨none, none⟩

/-- `(*cur_regs)[reg] = value`, if there is a value. -/
def RegsImpl.write (regs : RegsImpl t) (reg : Reg) (value : Option (Address t)) : RegsImpl t :=
  match value with
  | some v => { regs with regs := regs.regs.set reg.toNat v }
  | none => regs

/-- The loop over the rules. -/
def evalRules (s : Section) (m : Memory) (cie : DwarfCie) (locRegs : LocRegs)
    (cfa : Address t) : List Reg → RegsImpl t → Except Fault Unit × RegsImpl t
  | [], regs => (.ok (), regs)
  | reg :: rest, regs =>
    let effect := registerEffect s m cie locRegs cfa regs reg
    match effect.fault with
    | some e => (.error e, regs.write reg effect.written)
    | none => evalRules s m cie locRegs cfa rest (regs.write reg effect.written)

/-- `return_address_undefined` after the loop. -/
def returnAddressUndefined (cie : DwarfCie) (locRegs : LocRegs) : Bool :=
  let reg : Reg := cie.returnAddressRegister.setWidth 16
  match locRegs reg with
  | some loc => reg ≠ cfaReg ∧ loc.type = .undefined
  | none => false

/-- `DwarfSectionImpl::Eval`: the value of `*finished` or the failure, and the
registers. -/
def eval (s : Section) (m : Memory) (cie : DwarfCie) (locRegs : LocRegs)
    (order : Iteration locRegs) (regs : RegsImpl t) : Except Fault Bool × RegsImpl t :=
  match regs.regs[cie.returnAddressRegister.toNat]? with
  | none => (.error (.error .illegalValue), regs)
  | some _ =>
    match evalCfa s m cie locRegs regs with
    | .error e => (.error e, regs)
    | .ok cfa =>
      match evalRules s m cie locRegs cfa order.order regs with
      | (.error e, regs) => (.error e, regs)
      | (.ok (), regs) =>
        let pc := if returnAddressUndefined cie locRegs then 0
          else (regs.regs[cie.returnAddressRegister.toNat]?).getD 0
        (.ok (pc = 0), { regs with pc := pc, sp := cfa })

end

/-! ### The rules for a pc -/

/-- What does not change in a `DwarfSectionImpl`: its memory, and the CIE that `GetCie`
finds at an offset of it. -/
structure DwarfSection where
  memory : Section
  getCie : Word → DwarfCie

/-- An FDE of a section: `FillInFde` sets `cie` to what `GetCie` finds at `cie_offset`. -/
structure SectionFde (sec : DwarfSection) where
  fde : DwarfFde
  cie_eq : fde.cie = sec.getCie fde.cieOffset

/-- `cie_loc_regs_`. -/
abbrev CieLocRegs := Word → Option LocRegs

namespace CieLocRegs

/-- The cache of a new section. -/
def empty : CieLocRegs := fun _ => none

/-- `cie_loc_regs_[offset] = loc_regs`. -/
def set (cache : CieLocRegs) (offset : Word) (locRegs : LocRegs) : CieLocRegs :=
  fun o => if o = offset then some locRegs else cache o

end CieLocRegs

/-- What `GetCfaLocationInfo` returns, and the map it has filled in. -/
structure CfaLocation where
  result : Except Fault Unit
  locRegs : LocRegs

variable (t : AddressType)

/-- The second half of `GetCfaLocationInfo`: the program of the FDE, with the rules of
the CIE. -/
def fdeLocationInfo (sec : DwarfSection) (fde : DwarfFde) (fuel : Nat) (pc : Word)
    (cieLocRegs locRegs : LocRegs) (locRegState : List LocRegs) : Option CfaLocation :=
  match getLocationInfo t sec.memory fde (some cieLocRegs) fuel pc
      fde.cfaInstructionsOffset fde.cfaInstructionsEnd locRegs locRegState with
  | none => none
  | some info => some ⟨info.result, info.locRegs⟩

/-- `DwarfSectionImpl::GetCfaLocationInfo`, called with an empty map, and the cache it
leaves. -/
def getCfaLocationInfo (sec : DwarfSection) (fuel : Nat) (cache : CieLocRegs)
    (fde : DwarfFde) (pc : Word) : Option (CfaLocation × CieLocRegs) :=
  match cache fde.cieOffset with
  | some cieLocRegs =>
    match fdeLocationInfo t sec fde fuel pc cieLocRegs LocRegs.empty [] with
    | none => none
    | some location => some (location, cache)
  | none =>
    match getLocationInfo t sec.memory fde none fuel pc
        fde.cie.cfaInstructionsOffset fde.cie.cfaInstructionsEnd LocRegs.empty [] with
    | none => none
    | some ⟨.error e, locRegs, _⟩ => some (⟨.error e, locRegs⟩, cache)
    | some ⟨.ok (), locRegs, locRegState⟩ =>
      -- The interpreter is used for both programs: what the CIE has pushed is still there.
      match fdeLocationInfo t sec fde fuel pc locRegs locRegs locRegState with
      | none => none
      | some location => some (location, cache.set fde.cieOffset locRegs)

end AndroidCore.Libunwindstack
