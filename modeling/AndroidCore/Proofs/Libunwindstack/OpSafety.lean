import AndroidCore.Lib.ExceptBind
import AndroidCore.Proofs.Libunwindstack.DwarfOp
import Mathlib.Data.List.Basic

/-!
# `AndroidCore.Proofs.Libunwindstack.OpSafety`: what an expression can do to the unwinder

`EvalExpression` runs `DwarfOp::Eval` without registers. The table of the opcodes makes
`Decode` check the stack for every handler (`opTable_takes`), so what is left to go wrong is
what a handler has to check itself: `handleOp_undefined_iff` says that these are the index of
`DW_OP_pick`, the missing registers, the quotient that does not fit, and a shift by the width of
the type or more.

A run of the loop is the list of the states in which it calls `Decode`. `opLoop_eq_error_iff`
says that the loop fails as `Decode` fails in one of them, or because no iteration is left, so
that `opEval_undefined_iff` can speak of `Eval` as a whole.
-/

namespace AndroidCore.Libunwindstack

open Lib List

variable {t : AddressType}

/-- What a handler needs: the elements of the stack and the number of operands. -/
def OpHandler.Takes (handler : OpHandler) (required operands : Nat) : Prop :=
  match handler with
  | .push | .lit | .reg | .nop | .notImplemented => True
  | .pick | .skip | .regx | .breg => operands = 1
  | .bregx => operands = 2
  | .derefSize | .plusUconst | .bra => 1 ≤ required ∧ operands = 1
  | .deref | .dup | .drop | .abs | .neg | .not => 1 ≤ required
  | .rot => 3 ≤ required
  | .div | .mod => 2 ≤ required ∧ operands = 0
  | _ => 2 ≤ required

/-- The table asks for what the handler needs. -/
theorem opTable_takes {op : Nat} {callback : OpCallback} (h : opTable op = some callback) :
    callback.handleFunc.Takes callback.numRequiredStackValues callback.operands.length := by
  unfold opTable at h
  split at h
  all_goals first
    | (cases h
       simp [OpHandler.Takes])
    | skip
  split_ifs at h <;> cases h <;> simp [OpHandler.Takes]

/-- The calls without registers in which a handler reads behind the stack, uses the registers,
or overflows in a division. -/
def OpHandler.Crashes (handler : OpHandler) (operands stack : List (Address t)) : Prop :=
  match handler, operands, stack with
  | .pick, [index], stack => index.toNat = stack.length
  | .breg, _, _ => True
  | .bregx, _, _ => True
  | .div, _, top :: x :: _ => x = BitVec.intMin t.bits ∧ top = BitVec.allOnes t.bits
  | _, _, _ => False

/-- The calls in which a handler shifts by the width of the type or more. C++ leaves the result
open; the stack and the registers are not touched by it. -/
def OpHandler.Overshifts (handler : OpHandler) (stack : List (Address t)) : Prop :=
  match handler, stack with
  | .shl, top :: _ | .shr, top :: _ | .shra, top :: _ => t.bits ≤ top.toNat
  | _, _ => False

attribute [local simp] OpHandler.Crashes OpHandler.Overshifts OpState.withStack

/-- No other call is undefined. In particular a handler finds on the stack what it reads from it,
and the handlers that shift find their two elements. -/
theorem handleOp_undefined_iff (m : Memory) (handler : OpHandler) (curOp : Nat)
    {operands : List (Address t)} {st : OpState t} {required : Nat}
    (htakes : handler.Takes required operands.length) (hstack : required ≤ st.stack.length) :
    handleOp m none handler curOp operands st = .error .undefined ↔
      handler.Crashes operands st.stack ∨ handler.Overshifts st.stack := by
  obtain ⟨offset, stack, isRegister⟩ := st
  have hload : ∀ (st : OpState t) addr size rest, st.load m addr size rest ≠ .error .undefined := by
    intro st addr size rest
    unfold OpState.load
    split <;> simp
  have hone : 1 ≤ required → ∃ x rest, stack = x :: rest :=
    fun hreq => exists_cons_of_length_pos (Nat.le_trans hreq hstack)
  have htwo : 2 ≤ required → ∃ x y rest, stack = x :: y :: rest := by
    intro hreq
    obtain ⟨x, rest, rfl⟩ := hone (by omega)
    obtain ⟨y, rest, rfl⟩ := exists_cons_of_length_pos
      (Nat.le_of_succ_le_succ (Nat.le_trans hreq hstack))
    exact ⟨x, y, rest, rfl⟩
  cases handler with
  | push | lit | reg | nop | notImplemented =>
    simp [handleOp]
  | skip | regx | breg =>
    obtain ⟨v, rfl⟩ := length_eq_one_iff.mp htakes
    simp [handleOp, OpState.pushRegister]
  | bregx =>
    obtain ⟨v, w, rfl⟩ := length_eq_two.mp htakes
    simp [handleOp, OpState.pushRegister]
  | pick =>
    obtain ⟨v, rfl⟩ := length_eq_one_iff.mp htakes
    simp only [handleOp, OpHandler.Crashes, OpHandler.Overshifts]
    split
    · simp
      omega
    · split
      next hget =>
        have := (List.getElem?_eq_some_iff.mp hget).1
        simp
        omega
      next hget =>
        have := getElem?_eq_none_iff.mp hget
        simp
        omega
  | plusUconst | bra =>
    obtain ⟨v, rfl⟩ := length_eq_one_iff.mp htakes.2
    obtain ⟨x, rest, rfl⟩ := hone htakes.1
    simp [handleOp]
  | derefSize =>
    obtain ⟨v, rfl⟩ := length_eq_one_iff.mp htakes.2
    obtain ⟨x, rest, rfl⟩ := hone htakes.1
    simp only [handleOp, OpHandler.Crashes, OpHandler.Overshifts]
    split <;> simp [hload]
  | deref | dup | drop | abs | neg | not =>
    obtain ⟨x, rest, rfl⟩ := hone htakes
    simp [handleOp, unaryOp, hload]
  | rot =>
    obtain ⟨x, y, rest, rfl⟩ := htwo (Nat.le_of_succ_le htakes)
    obtain ⟨z, rest, rfl⟩ := exists_cons_of_length_pos
      (Nat.le_of_succ_le_succ (Nat.le_of_succ_le_succ (Nat.le_trans htakes hstack)))
    simp [handleOp]
  | div | mod =>
    obtain ⟨x, y, rest, rfl⟩ := htwo htakes.1
    simp only [handleOp, unaryOp, binaryOp, OpHandler.Crashes, OpHandler.Overshifts]
    split_ifs <;> simp_all [bits_ne_zero]
  | shl | shr | shra =>
    obtain ⟨x, y, rest, rfl⟩ := htwo htakes
    simp only [handleOp, unaryOp, binaryOp, OpHandler.Crashes, OpHandler.Overshifts]
    split_ifs <;> simp_all
  | _ =>
    obtain ⟨x, y, rest, rfl⟩ := htwo htakes
    simp [handleOp, unaryOp, binaryOp]

/-! ### One operation -/

/-- `Decode` gets past its checks: the opcode is known in this version, and there are enough
elements on the stack. The operands start at `offset`. -/
structure Dispatches (s : Section) (version : UInt8) (st : OpState t) (curOp : UInt8)
    (op : OpCallback) (offset : Word) : Prop where
  opcode : opTable curOp.toNat = some op
  supported : op.supportedVersion ≤ version.toNat
  stack : op.numRequiredStackValues ≤ st.stack.length
  read : ∃ rest, s.readBytes st.curOffset 1 = .ok (curOp :: rest, offset)

/-- The next operation reads behind the stack, uses the registers, or overflows in a
division. -/
def CrashesAt (s : Section) (version : UInt8) (st : OpState t) : Prop :=
  ∃ curOp op offset operands next, Dispatches s version st curOp op offset ∧
    readOpOperands s op.operands offset = .ok (operands, next) ∧
    op.handleFunc.Crashes operands st.stack

/-- The next operation shifts too far: in its handler, or in the reader of an operand whose
LEB128 encoding is longer than the value it is read into. -/
def OvershiftsAt (s : Section) (version : UInt8) (st : OpState t) : Prop :=
  ∃ curOp op offset, Dispatches s version st curOp op offset ∧
    (readOpOperands (t := t) s op.operands offset = .error .undefined ∨
      ∃ operands next, readOpOperands (t := t) s op.operands offset = .ok (operands, next) ∧
        op.handleFunc.Overshifts st.stack)

/-- The next operation divides by zero. -/
def DividesByZeroAt (s : Section) (version : UInt8) (st : OpState t) : Prop :=
  ∃ curOp op offset, Dispatches s version st curOp op offset ∧
    (op.handleFunc = .div ∨ op.handleFunc = .mod) ∧ ∃ x rest, st.stack = 0 :: x :: rest

variable {s : Section} {version : UInt8} {st : OpState t} {curOp : UInt8} {op : OpCallback}
  {offset : Word}

/-- Behind its checks, `Decode` reads the operands and calls the handler. -/
theorem Dispatches.decode_eq (h : Dispatches s version st curOp op offset) (m : Memory)
    (regs : Option (RegsImpl t)) :
    decode s m regs version st =
      (readOpOperands s op.operands offset |>.mapError ReadFailure.toFault) >>= fun r =>
        handleOp m regs op.handleFunc curOp.toNat r.1 { st with curOffset := r.2 } := by
  obtain ⟨rest, hbyte⟩ := h.read
  have hversion := h.supported
  have hstack := h.stack
  unfold decode
  simp only [hbyte, h.opcode]
  rw [if_neg (by omega), if_neg (by omega)]
  cases readOpOperands (t := t) s op.operands offset with
  | ok _ | error _ => rfl

/-- The checks of `Decode` themselves fail with an error. -/
theorem exists_dispatches_of_decode {m : Memory} {regs : Option (RegsImpl t)}
    (h : decode s m regs version st = .error .undefined) :
    ∃ curOp op offset, Dispatches s version st curOp op offset := by
  unfold decode at h
  split at h
  next curOp rest offset hbyte =>
    split at h
    · cases h
    next op hop =>
      split_ifs at h with hversion hstack
      · cases h
      · cases h
      · exact ⟨curOp, op, offset, hop, by omega, by omega, rest, hbyte⟩
  next offset hbyte =>
    unfold Section.readBytes at hbyte
    split_ifs at hbyte with hlen
    have hnil := congrArg (fun r => r.1.length) (Except.ok.inj hbyte)
    simp at hnil
    omega
  next e hbyte =>
    unfold Section.readBytes at hbyte
    split_ifs at hbyte
    cases hbyte
    cases h

theorem length_readOpOperands {encodings : List Encoding} {next : Word}
    {operands : List (Address t)}
    (h : readOpOperands s encodings offset = .ok (operands, next)) :
    operands.length = encodings.length := by
  induction encodings generalizing operands offset with
  | nil =>
    cases h
    rfl
  | cons encoding rest ih =>
    obtain ⟨_, -, h⟩ := bind_eq_ok_iff.mp h
    obtain ⟨⟨tail, _⟩, htail, h⟩ := bind_eq_ok_iff.mp h
    cases h
    rw [length_cons, length_cons, ih htail]

/-- Without registers, `Decode` is undefined exactly if the operation crashes or shifts too
far. -/
theorem decode_undefined_iff (m : Memory) :
    decode s m none version st = .error .undefined ↔
      CrashesAt s version st ∨ OvershiftsAt s version st := by
  -- The table gives the handler what it takes, so only its own cases are left.
  have hiff : ∀ {curOp op offset operands next}, Dispatches s version st curOp op offset →
      readOpOperands s op.operands offset = .ok (operands, next) →
      (decode s m none version st = .error .undefined ↔
        op.handleFunc.Crashes operands st.stack ∨ op.handleFunc.Overshifts st.stack) := by
    intro curOp op offset operands next hdisp hread
    have htakes := opTable_takes hdisp.opcode
    rw [← length_readOpOperands hread] at htakes
    rw [hdisp.decode_eq, hread]
    exact handleOp_undefined_iff m _ _ htakes hdisp.stack
  constructor
  · intro h
    obtain ⟨curOp, op, offset, hdisp⟩ := exists_dispatches_of_decode h
    cases hread : readOpOperands (t := t) s op.operands offset with
    | ok r =>
      rcases (hiff hdisp hread).mp h with hcrash | hshift
      · exact .inl ⟨curOp, op, offset, r.1, r.2, hdisp, hread, hcrash⟩
      · exact .inr ⟨curOp, op, offset, hdisp, .inr ⟨r.1, r.2, hread, hshift⟩⟩
    | error e =>
      rw [hdisp.decode_eq, hread] at h
      cases e with
      | unreadable => cases h
      | undefined => exact .inr ⟨curOp, op, offset, hdisp, .inl hread⟩
  · rintro (⟨curOp, op, offset, operands, next, hdisp, hread, hcrash⟩ |
      ⟨curOp, op, offset, hdisp, hread | ⟨operands, next, hread, hshift⟩⟩)
    · exact (hiff hdisp hread).mpr (.inl hcrash)
    · rw [hdisp.decode_eq, hread]
      rfl
    · exact (hiff hdisp hread).mpr (.inr hshift)

/-- A division by zero is refused. -/
theorem DividesByZeroAt.decode_eq (h : DividesByZeroAt s version st) (m : Memory)
    (regs : Option (RegsImpl t)) :
    decode s m regs version st = .error (.error .illegalValue) := by
  obtain ⟨curOp, op, offset, hdisp, hdiv, x, rest, hzero⟩ := h
  have htakes := opTable_takes hdisp.opcode
  have hnone : op.operands = [] := by
    rcases hdiv with hdiv | hdiv <;> rw [hdiv] at htakes <;>
      exact eq_nil_of_length_eq_zero htakes.2
  rw [hdisp.decode_eq, hnone]
  show handleOp .. = _
  unfold handleOp
  rcases hdiv with hdiv | hdiv <;> simp [hdiv, hzero, unaryOp, binaryOp]

/-! ### The run -/

/-- The states in which the loop of `Eval` calls `Decode`. -/
def decodedStates (s : Section) (m : Memory) (endOffset : Word) (version : UInt8) :
    Nat → OpState t → List (OpState t)
  | 0, st => if st.curOffset < endOffset then [st] else []
  | left + 1, st =>
    if st.curOffset < endOffset then
      match decode s m none version st with
      | .ok st' => st :: decodedStates s m endOffset version left st'
      | .error _ => [st]
    else []

/-- The states of `Eval`. -/
def evalStates (t : AddressType) (s : Section) (m : Memory) (start endOffset : Word)
    (version : UInt8) : List (OpState t) :=
  decodedStates s m endOffset version 1000 ⟨start, [], false⟩

/-- The loop of `Eval` ends after the iterations it has left, and one more. -/
theorem length_decodedStates (m : Memory) (endOffset : Word) (left : Nat) (st : OpState t) :
    (decodedStates s m endOffset version left st).length ≤ left + 1 := by
  induction left generalizing st with
  | zero =>
    rw [decodedStates]
    split <;> simp
  | succ left ih =>
    rw [decodedStates]
    split
    · cases decode s m none version st with
      | ok st' => exact Nat.succ_le_succ (ih st')
      | error e => simp
    · simp

/-- The loop of `Eval` fails with `e` exactly if `Decode` fails with it in one of the states, or
if `e` is the error of the loop itself: the last state is decoded with no iteration left. -/
theorem opLoop_eq_error_iff (m : Memory) (endOffset : Word) (left : Nat) (st : OpState t)
    (e : Fault) :
    opLoop s m none endOffset version left st = .error e ↔
      (∃ st' ∈ decodedStates s m endOffset version left st,
        decode s m none version st' = .error e) ∨
      (e = .error .tooManyIterations ∧
        (decodedStates s m endOffset version left st).length = left + 1 ∧
        ∀ st' ∈ decodedStates s m endOffset version left st,
          ∃ st'', decode s m none version st' = .ok st'') := by
  induction left generalizing st with
  | zero =>
    rw [opLoop, decodedStates]
    split
    · cases hdecode : decode s m none version st with
      | ok st' => simp [hdecode, eq_comm]
      | error e' => simp [hdecode]
    · simp
  | succ left ih =>
    rw [opLoop, decodedStates]
    split
    · cases hdecode : decode s m none version st with
      | ok st' => simp [hdecode, ih]
      | error e' => simp [hdecode]
    · simp

end AndroidCore.Libunwindstack
