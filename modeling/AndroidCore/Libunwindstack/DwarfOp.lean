import AndroidCore.Libunwindstack.DwarfMemory

/-!
# `AndroidCore.Libunwindstack.DwarfOp`: the interpreter of DWARF expressions

`DwarfOp::Eval` with `Decode`, the table of the opcodes and their handlers. The stack is
a list with the top first. `Decode` checks the number of stack elements an opcode needs
before it calls the handler; `DW_OP_pick` checks its index itself.

Where the source runs into undefined behaviour the model says so: an access behind the
end of the stack, a shift by the width or more, the division of the least value by
minus one, and a register read by an interpreter that was given no registers.
-/

namespace AndroidCore.Libunwindstack

open Lib

/-- `RegsImpl`: the general registers, which are `total_regs` in number, and the fields
for the pc and the stack pointer. -/
structure RegsImpl (t : AddressType) where
  regs : List (Address t)
  spReg : BitVec 16
  pc : Address t
  sp : Address t
deriving DecidableEq

/-- The handlers of the table. -/
inductive OpHandler where
  | deref
  | derefSize
  | push
  | dup
  | drop
  | opOver
  | pick
  | swap
  | rot
  | abs
  | and
  | div
  | minus
  | mod
  | mul
  | neg
  | not
  | or
  | plus
  | plusUconst
  | shl
  | shr
  | shra
  | xor
  | bra
  | eq
  | ge
  | gt
  | le
  | lt
  | ne
  | skip
  | lit
  | reg
  | regx
  | breg
  | bregx
  | nop
  | notImplemented
deriving DecidableEq, Repr

/-- `OpCallback`. -/
structure OpCallback where
  handleFunc : OpHandler
  supportedVersion : Nat
  numRequiredStackValues : Nat
  operands : List Encoding
deriving DecidableEq, Repr

/-- `DwarfOp::kCallbackTable`; `none` is an illegal opcode. -/
def opTable (op : Nat) : Option OpCallback :=
  match op with
  | 0x03 => some ⟨.push, 2, 0, [.absptr]⟩
  | 0x06 => some ⟨.deref, 2, 1, []⟩
  | 0x08 => some ⟨.push, 2, 0, [.udata1]⟩
  | 0x09 => some ⟨.push, 2, 0, [.sdata1]⟩
  | 0x0a => some ⟨.push, 2, 0, [.udata2]⟩
  | 0x0b => some ⟨.push, 2, 0, [.sdata2]⟩
  | 0x0c => some ⟨.push, 2, 0, [.udata4]⟩
  | 0x0d => some ⟨.push, 2, 0, [.sdata4]⟩
  | 0x0e => some ⟨.push, 2, 0, [.udata8]⟩
  | 0x0f => some ⟨.push, 2, 0, [.sdata8]⟩
  | 0x10 => some ⟨.push, 2, 0, [.uleb128]⟩
  | 0x11 => some ⟨.push, 2, 0, [.sleb128]⟩
  | 0x12 => some ⟨.dup, 2, 1, []⟩
  | 0x13 => some ⟨.drop, 2, 1, []⟩
  | 0x14 => some ⟨.opOver, 2, 2, []⟩
  | 0x15 => some ⟨.pick, 2, 0, [.udata1]⟩
  | 0x16 => some ⟨.swap, 2, 2, []⟩
  | 0x17 => some ⟨.rot, 2, 3, []⟩
  | 0x18 => some ⟨.notImplemented, 2, 2, []⟩
  | 0x19 => some ⟨.abs, 2, 1, []⟩
  | 0x1a => some ⟨.and, 2, 2, []⟩
  | 0x1b => some ⟨.div, 2, 2, []⟩
  | 0x1c => some ⟨.minus, 2, 2, []⟩
  | 0x1d => some ⟨.mod, 2, 2, []⟩
  | 0x1e => some ⟨.mul, 2, 2, []⟩
  | 0x1f => some ⟨.neg, 2, 1, []⟩
  | 0x20 => some ⟨.not, 2, 1, []⟩
  | 0x21 => some ⟨.or, 2, 2, []⟩
  | 0x22 => some ⟨.plus, 2, 2, []⟩
  | 0x23 => some ⟨.plusUconst, 2, 1, [.uleb128]⟩
  | 0x24 => some ⟨.shl, 2, 2, []⟩
  | 0x25 => some ⟨.shr, 2, 2, []⟩
  | 0x26 => some ⟨.shra, 2, 2, []⟩
  | 0x27 => some ⟨.xor, 2, 2, []⟩
  | 0x28 => some ⟨.bra, 2, 1, [.sdata2]⟩
  | 0x29 => some ⟨.eq, 2, 2, []⟩
  | 0x2a => some ⟨.ge, 2, 2, []⟩
  | 0x2b => some ⟨.gt, 2, 2, []⟩
  | 0x2c => some ⟨.le, 2, 2, []⟩
  | 0x2d => some ⟨.lt, 2, 2, []⟩
  | 0x2e => some ⟨.ne, 2, 2, []⟩
  | 0x2f => some ⟨.skip, 2, 0, [.sdata2]⟩
  | 0x90 => some ⟨.regx, 2, 0, [.uleb128]⟩
  | 0x91 => some ⟨.notImplemented, 2, 0, [.sleb128]⟩
  | 0x92 => some ⟨.bregx, 2, 0, [.uleb128, .sleb128]⟩
  | 0x93 => some ⟨.notImplemented, 2, 0, [.uleb128]⟩
  | 0x94 => some ⟨.derefSize, 2, 1, [.udata1]⟩
  | 0x95 => some ⟨.notImplemented, 2, 0, [.udata1]⟩
  | 0x96 => some ⟨.nop, 2, 0, []⟩
  | 0x97 => some ⟨.notImplemented, 3, 0, []⟩
  | 0x98 => some ⟨.notImplemented, 3, 0, [.udata2]⟩
  | 0x99 => some ⟨.notImplemented, 3, 0, [.udata4]⟩
  | 0x9a => some ⟨.notImplemented, 3, 0, []⟩
  | 0x9b => some ⟨.notImplemented, 3, 0, []⟩
  | 0x9c => some ⟨.notImplemented, 3, 0, []⟩
  | 0x9d => some ⟨.notImplemented, 3, 0, [.uleb128, .uleb128]⟩
  | 0x9e => some ⟨.notImplemented, 4, 0, [.uleb128]⟩
  | 0x9f => some ⟨.notImplemented, 4, 1, []⟩
  | op =>
    if 0x30 ≤ op ∧ op < 0x50 then some ⟨.lit, 2, 0, []⟩
    else if 0x50 ≤ op ∧ op < 0x70 then some ⟨.reg, 2, 0, []⟩
    else if 0x70 ≤ op ∧ op < 0x90 then some ⟨.breg, 2, 0, [.sleb128]⟩
    else none

/-- The state of the interpreter that an opcode can change: the offset of the reader,
`stack_` and `is_register_`. -/
structure OpState (t : AddressType) where
  curOffset : Word
  stack : List (Address t)
  isRegister : Bool
deriving DecidableEq

section

variable {t : AddressType}

/-- The operands of an opcode. -/
def readOpOperands (s : Section) :
    List Encoding → Word → Except ReadFailure (List (Address t) × Word)
  | [], curOffset => .ok ([], curOffset)
  | encoding :: rest, curOffset => do
    let (value, curOffset) ← s.readEncodedValue t encoding curOffset
    let (operands, curOffset) ← readOpOperands s rest curOffset
    return (value.setWidth t.bits :: operands, curOffset)

namespace OpState

/-- The state with another stack. -/
def withStack (st : OpState t) (stack : List (Address t)) : Except Fault (OpState t) :=
  .ok { st with stack := stack }

/-- `regular_memory()->Read(addr, &value, size)` into a zeroed value. -/
def load (st : OpState t) (m : Memory) (addr : Address t) (size : Nat)
    (rest : List (Address t)) : Except Fault (OpState t) :=
  match m.read (addr.setWidth 64) size with
  | .ok bs => st.withStack (BitVec.ofNat t.bits (leValue bs) :: rest)
  | .error _ => .error (.error .memoryInvalid)

/-- `memory_->set_cur_offset(memory_->cur_offset() + offset)`. -/
def jump (st : OpState t) (offset : BitVec 16) : OpState t :=
  { st with curOffset := st.curOffset + offset.signExtend 64 }

/-- `memory_->set_cur_offset(memory_->cur_offset() - offset)`. -/
def jumpBack (st : OpState t) (offset : BitVec 16) : OpState t :=
  { st with curOffset := st.curOffset - offset.signExtend 64 }

/-- `(*regs_)[reg] + offset` on top of the stack. -/
def pushRegister (st : OpState t) (regs : Option (RegsImpl t)) (reg : Nat)
    (offset : Address t) : Except Fault (OpState t) :=
  match regs with
  -- The pointer `regs_` was never set.
  | none => .error .undefined
  | some r =>
    match r.regs[reg]? with
    | some value => st.withStack ((value + offset) :: st.stack)
    | none => .error (.error .illegalValue)

end OpState

/-- `bool_to_dwarf_bool`. -/
def boolToDwarfBool (value : Bool) : Address t := if value then 1 else 0

/-- The handlers that replace the two topmost elements by one value. `top` is the
element that is popped, `x` the one below it. -/
def binaryOp (handler : OpHandler) (x top : Address t) : Option (Except Fault (Address t)) :=
  match handler with
  | .and => some (.ok (x &&& top))
  | .div => some <|
    if top = 0 then .error (.error .illegalValue)
    -- The quotient does not fit in a `SignedType`.
    else if x = BitVec.intMin t.bits ∧ top = BitVec.allOnes t.bits then .error .undefined
    else .ok (x.sdiv top)
  | .minus => some (.ok (x - top))
  | .mod => some (if top = 0 then .error (.error .illegalValue) else .ok (x % top))
  | .mul => some (.ok (x * top))
  | .or => some (.ok (x ||| top))
  | .plus => some (.ok (x + top))
  | .shl => some (if t.bits ≤ top.toNat then .error .undefined else .ok (x <<< top.toNat))
  | .shr => some (if t.bits ≤ top.toNat then .error .undefined else .ok (x >>> top.toNat))
  | .shra => some <|
    if t.bits ≤ top.toNat then .error .undefined else .ok (x.sshiftRight top.toNat)
  | .xor => some (.ok (x ^^^ top))
  | .eq => some (.ok (boolToDwarfBool (x = top)))
  | .ge => some (.ok (boolToDwarfBool (x ≥ top)))
  | .gt => some (.ok (boolToDwarfBool (x > top)))
  | .le => some (.ok (boolToDwarfBool (x ≤ top)))
  | .lt => some (.ok (boolToDwarfBool (x < top)))
  | .ne => some (.ok (boolToDwarfBool (x ≠ top)))
  | _ => none

/-- The handlers that replace the topmost element by another value. -/
def unaryOp (handler : OpHandler) (x : Address t) : Option (Address t) :=
  match handler with
  | .abs => some (if x.slt 0 then -x else x)
  | .neg => some (-x)
  | .not => some (~~~x)
  | _ => none

/-- The handlers, called with `cur_op_` and the operands. -/
def handleOp (m : Memory) (regs : Option (RegsImpl t)) (handler : OpHandler) (curOp : Nat)
    (operands : List (Address t)) (st : OpState t) : Except Fault (OpState t) :=
  match handler, operands, st.stack with
  | .deref, _, addr :: rest => st.load m addr t.size rest
  | .derefSize, [bytesToRead], stack =>
    if bytesToRead.toNat > t.size ∨ bytesToRead = 0 then .error (.error .illegalValue)
    else
      match stack with
      | addr :: rest => st.load m addr bytesToRead.toNat rest
      | [] => .error .undefined
  | .push, operands, stack => st.withStack (operands.reverse ++ stack)
  | .dup, _, x :: rest => st.withStack (x :: x :: rest)
  | .drop, _, _ :: rest => st.withStack rest
  | .opOver, _, x :: y :: rest => st.withStack (y :: x :: y :: rest)
  | .pick, [index], stack =>
    if index.toNat > stack.length then .error (.error .stackIndexNotValid)
    else
      match stack[index.toNat]? with
      | some x => st.withStack (x :: stack)
      -- The check lets the size of the stack through.
      | none => .error .undefined
  | .swap, _, x :: y :: rest => st.withStack (y :: x :: rest)
  | .rot, _, x :: y :: z :: rest => st.withStack (y :: z :: x :: rest)
  | .plusUconst, [operand], x :: rest => st.withStack ((x + operand) :: rest)
  | .bra, [operand], top :: rest =>
    let offset : BitVec 16 := operand.setWidth 16
    let st := { st with stack := rest }
    -- A branch that is not taken jumps too, in the other direction.
    .ok (if top ≠ 0 then st.jump offset else st.jumpBack offset)
  | .skip, [operand], _ => .ok (st.jump (operand.setWidth 16))
  | .lit, _, stack => st.withStack (BitVec.ofNat t.bits (curOp - 0x30) :: stack)
  | .reg, _, stack =>
    .ok { st with isRegister := true, stack := BitVec.ofNat t.bits (curOp - 0x50) :: stack }
  | .regx, [reg], stack => .ok { st with isRegister := true, stack := reg :: stack }
  | .breg, [offset], _ => st.pushRegister regs (curOp - 0x70) offset
  | .bregx, [reg, offset], _ => st.pushRegister regs reg.toNat offset
  | .nop, _, _ => .ok st
  | .notImplemented, _, _ => .error (.error .notImplemented)
  | handler, _, x :: rest =>
    match unaryOp handler x with
    | some value => st.withStack (value :: rest)
    | none =>
      match rest with
      | y :: rest =>
        match binaryOp handler y x with
        | some (.ok value) => st.withStack (value :: rest)
        | some (.error e) => .error e
        | none => .error .undefined
      | [] => .error .undefined
  | _, _, _ => .error .undefined

/-- `DwarfOp::Decode`. -/
def decode (s : Section) (m : Memory) (regs : Option (RegsImpl t)) (dwarfVersion : UInt8)
    (st : OpState t) : Except Fault (OpState t) :=
  match s.readBytes st.curOffset 1 with
  | .ok (curOp :: _, curOffset) =>
    match opTable curOp.toNat with
    | none => .error (.error .illegalValue)
    | some op =>
      if dwarfVersion.toNat < op.supportedVersion then .error (.error .illegalValue)
      else if st.stack.length < op.numRequiredStackValues then
        .error (.error .stackIndexNotValid)
      else
        match readOpOperands s op.operands curOffset with
        | .ok (operands, curOffset) =>
          handleOp m regs op.handleFunc curOp.toNat operands
            { st with curOffset := curOffset }
        | .error e => .error e.toFault
  | .ok ([], _) => .error .undefined
  | .error e => .error e.toFault

/-- The loop of `Eval`. The argument is 1000 less `iterations`. -/
def opLoop (s : Section) (m : Memory) (regs : Option (RegsImpl t)) (endOffset : Word)
    (dwarfVersion : UInt8) : Nat → OpState t → Except Fault (OpState t)
  | left, st =>
    if st.curOffset < endOffset then
      match decode s m regs dwarfVersion st with
      | .error e => .error e
      | .ok st =>
        match left with
        | 0 => .error (.error .tooManyIterations)
        | left + 1 => opLoop s m regs endOffset dwarfVersion left st
    else .ok st

/-- `DwarfOp::Eval`. -/
def opEval (s : Section) (m : Memory) (regs : Option (RegsImpl t)) (start endOffset : Word)
    (dwarfVersion : UInt8) : Except Fault (OpState t) :=
  opLoop s m regs endOffset dwarfVersion 1000 ⟨start, [], false⟩

end

end AndroidCore.Libunwindstack
