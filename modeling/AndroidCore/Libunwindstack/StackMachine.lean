import AndroidCore.Lib.LittleEndian
import AndroidCore.Libunwindstack.DwarfMemory

/-!
# `AndroidCore.Libunwindstack.StackMachine`: DWARF 4 expressions

What the operations mean that `DwarfOp` implements for the value of an expression:
section 2.5.1 of the DWARF 4 standard, written down on its own and not taken from the
code. The expression is a byte string. A state is the position in it and the stack, the
top first. `step` is one operation; it has no result when the operation or its operand is
malformed, the stack is too short, a jump leaves the expression, a divisor is zero, or
the memory cannot be read.

Arithmetic is modulo the width of an address. `DW_OP_div` and the ordering comparisons
are signed, all else is unsigned. A shift by the width or more gives zero, or the sign.
-/

namespace AndroidCore.Libunwindstack.StackMachine

open Lib

/-- The operations, without their operands. -/
inductive Mnemonic where
  | const
  | lit (value : Nat)
  | deref
  | derefSize
  | dup
  | drop
  | opOver
  | pick
  | swap
  | rot
  | abs
  | and
  | div
  | minus
  | mod
  | mul
  | neg
  | not
  | or
  | plus
  | plusUconst
  | shl
  | shr
  | shra
  | xor
  | bra
  | eq
  | ge
  | gt
  | le
  | lt
  | ne
  | skip
  | nop
deriving DecidableEq, Repr

/-- The operands: an address, numbers of a fixed size, and the LEB128 numbers. -/
inductive OperandKind where
  | address
  | unsigned (size : Nat)
  | signed (size : Nat)
  | uleb128
  | sleb128
deriving DecidableEq, Repr

/-- The opcodes, with the kind of their operand. -/
def opcodes (op : Nat) : Option (Mnemonic × Option OperandKind) :=
  match op with
  | 0x03 => some (.const, some .address)
  | 0x06 => some (.deref, none)
  | 0x08 => some (.const, some (.unsigned 1))
  | 0x09 => some (.const, some (.signed 1))
  | 0x0a => some (.const, some (.unsigned 2))
  | 0x0b => some (.const, some (.signed 2))
  | 0x0c => some (.const, some (.unsigned 4))
  | 0x0d => some (.const, some (.signed 4))
  | 0x0e => some (.const, some (.unsigned 8))
  | 0x0f => some (.const, some (.signed 8))
  | 0x10 => some (.const, some .uleb128)
  | 0x11 => some (.const, some .sleb128)
  | 0x12 => some (.dup, none)
  | 0x13 => some (.drop, none)
  | 0x14 => some (.opOver, none)
  | 0x15 => some (.pick, some (.unsigned 1))
  | 0x16 => some (.swap, none)
  | 0x17 => some (.rot, none)
  | 0x19 => some (.abs, none)
  | 0x1a => some (.and, none)
  | 0x1b => some (.div, none)
  | 0x1c => some (.minus, none)
  | 0x1d => some (.mod, none)
  | 0x1e => some (.mul, none)
  | 0x1f => some (.neg, none)
  | 0x20 => some (.not, none)
  | 0x21 => some (.or, none)
  | 0x22 => some (.plus, none)
  | 0x23 => some (.plusUconst, some .uleb128)
  | 0x24 => some (.shl, none)
  | 0x25 => some (.shr, none)
  | 0x26 => some (.shra, none)
  | 0x27 => some (.xor, none)
  | 0x28 => some (.bra, some (.signed 2))
  | 0x29 => some (.eq, none)
  | 0x2a => some (.ge, none)
  | 0x2b => some (.gt, none)
  | 0x2c => some (.le, none)
  | 0x2d => some (.lt, none)
  | 0x2e => some (.ne, none)
  | 0x2f => some (.skip, some (.signed 2))
  | 0x94 => some (.derefSize, some (.unsigned 1))
  | 0x96 => some (.nop, none)
  | op => if 0x30 ≤ op ∧ op < 0x50 then some (.lit (op - 0x30), none) else none

/-- An unsigned number of `size` bytes at the front of the bytes. -/
def fixed (size : Nat) (bytes : List UInt8) : Option (Nat × Nat) :=
  if size ≤ bytes.length then some (leValue (bytes.take size), size) else none

/-- The operand at the front of the bytes, and its length. -/
def operand (t : AddressType) (kind : OperandKind) (bytes : List UInt8) : Option (Int × Nat) :=
  match kind with
  | .address => (fixed t.size bytes).map fun (v, n) => ((v : Int), n)
  | .unsigned size => (fixed size bytes).map fun (v, n) => ((v : Int), n)
  | .signed size => (fixed size bytes).map fun (v, n) => ((BitVec.ofNat (8 * size) v).toInt, n)
  | .uleb128 => (Lib.uleb128 bytes).map fun (v, n) => ((v : Int), n)
  | .sleb128 => Lib.sleb128 bytes

/-- An operation with its operand (zero if it has none), and how long both are. -/
structure Operation where
  mnemonic : Mnemonic
  kind : Option OperandKind
  value : Int
  length : Nat

/-- The operation at the front of the bytes. -/
def fetch (t : AddressType) (bytes : List UInt8) : Option Operation :=
  match bytes with
  | [] => none
  | op :: rest =>
    match opcodes op.toNat with
    | none => none
    | some (mnemonic, none) => some ⟨mnemonic, none, 0, 1⟩
    | some (mnemonic, some kind) =>
      match operand t kind rest with
      | none => none
      | some (value, n) => some ⟨mnemonic, some kind, value, n + 1⟩

/-- A state of the machine. -/
structure State (t : AddressType) where
  pos : Nat
  stack : List (Address t)
deriving DecidableEq

section

variable {t : AddressType}

/-- One for true, zero for false. -/
def truth (p : Prop) [Decidable p] : Address t := if p then 1 else 0

/-- The operations on the two topmost elements; `top` is the first one. -/
def binary (mnemonic : Mnemonic) (x top : Address t) : Option (Address t) :=
  match mnemonic with
  | .and => some (x &&& top)
  | .div => if top = 0 then none else some (x.sdiv top)
  | .minus => some (x - top)
  | .mod => if top = 0 then none else some (x % top)
  | .mul => some (x * top)
  | .or => some (x ||| top)
  | .plus => some (x + top)
  | .shl => some (x <<< top.toNat)
  | .shr => some (x >>> top.toNat)
  | .shra => some (x.sshiftRight top.toNat)
  | .xor => some (x ^^^ top)
  | .eq => some (truth (x = top))
  | .ge => some (truth (top.toInt ≤ x.toInt))
  | .gt => some (truth (top.toInt < x.toInt))
  | .le => some (truth (x.toInt ≤ top.toInt))
  | .lt => some (truth (x.toInt < top.toInt))
  | .ne => some (truth (x ≠ top))
  | _ => none

/-- The operations on the topmost element. -/
def unary (mnemonic : Mnemonic) (x : Address t) : Option (Address t) :=
  match mnemonic with
  | .abs => some (BitVec.ofInt t.bits |x.toInt|)
  | .neg => some (-x)
  | .not => some (~~~x)
  | _ => none

/-- A jump from the position behind the operation; it has to stay in the expression. -/
def jump (length next : Nat) (value : Int) (stack : List (Address t)) : Option (State t) :=
  if 0 ≤ next + value ∧ next + value ≤ length then some ⟨(next + value).toNat, stack⟩
  else none

/-- A value in the memory of the process. -/
def load (m : Memory) (addr : Address t) (size : Nat) : Option (Address t) :=
  match m.read (addr.setWidth 64) size with
  | .ok bs => some (BitVec.ofNat t.bits (leValue bs))
  | .error _ => none

/-- The effect of an operation in an expression of `length` bytes; `next` is the position
behind it. -/
def execute (m : Memory) (length : Nat) (op : Operation) (next : Nat)
    (stack : List (Address t)) : Option (State t) :=
  match op.mnemonic, stack with
  | .const, stack => some ⟨next, BitVec.ofInt t.bits op.value :: stack⟩
  | .lit value, stack => some ⟨next, BitVec.ofNat t.bits value :: stack⟩
  | .deref, addr :: rest => (load m addr t.size).map fun v => ⟨next, v :: rest⟩
  | .derefSize, addr :: rest =>
    if 0 < op.value ∧ op.value ≤ t.size then
      (load m addr op.value.toNat).map fun v => ⟨next, v :: rest⟩
    else none
  | .dup, x :: rest => some ⟨next, x :: x :: rest⟩
  | .drop, _ :: rest => some ⟨next, rest⟩
  | .opOver, x :: y :: rest => some ⟨next, y :: x :: y :: rest⟩
  | .pick, stack => stack[op.value.toNat]?.map fun x => ⟨next, x :: stack⟩
  | .swap, x :: y :: rest => some ⟨next, y :: x :: rest⟩
  | .rot, x :: y :: z :: rest => some ⟨next, y :: z :: x :: rest⟩
  | .plusUconst, x :: rest => some ⟨next, (x + BitVec.ofInt t.bits op.value) :: rest⟩
  | .bra, top :: rest => if top ≠ 0 then jump length next op.value rest else some ⟨next, rest⟩
  | .skip, stack => jump length next op.value stack
  | .nop, stack => some ⟨next, stack⟩
  | .abs, x :: rest | .neg, x :: rest | .not, x :: rest =>
    (unary op.mnemonic x).map fun v => ⟨next, v :: rest⟩
  | mnemonic, top :: x :: rest => (binary mnemonic x top).map fun v => ⟨next, v :: rest⟩
  | _, _ => none

/-- One operation of the expression. -/
def step (m : Memory) (expr : List UInt8) (st : State t) : Option (State t) :=
  match fetch t (expr.drop st.pos) with
  | none => none
  | some op => execute m expr.length op (st.pos + op.length) st.stack

/-- The state after `n` operations, from the start of the expression and the empty
stack. -/
def stateAt (t : AddressType) (m : Memory) (expr : List UInt8) : Nat → Option (State t)
  | 0 => some ⟨0, []⟩
  | n + 1 => (stateAt t m expr n).bind (step m expr)

/-- The expression ends after `n` operations with the stack. -/
def Evaluates (m : Memory) (expr : List UInt8) (n : Nat) (stack : List (Address t)) : Prop :=
  stateAt t m expr n = some ⟨expr.length, stack⟩

end

end AndroidCore.Libunwindstack.StackMachine
