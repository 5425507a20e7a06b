import AndroidCore.Libunwindstack.DwarfOp
import AndroidCore.Libunwindstack.StackMachine
import Mathlib.Tactic.IntervalCases

/-!
# `AndroidCore.Proofs.Libunwindstack.DwarfOp`: expressions against the DWARF 4 machine

`DwarfOp::Eval` follows the machine of `StackMachine` as long as every operation is tame
(`TameAt`), and leaves it at the first one that is not (`opEval_refines_iff`). What is not
tame:

* a branch that is not taken and has an offset: the code jumps back by the offset;
* a shift by the width of an address or more, and the division of the least value by
  minus one, which are undefined in the code;
* an ordering of two values with different signs: the code compares unsigned values;
* a LEB128 operand of more than ten bytes, or a negative one of ten, whose decoding shifts
  by more than the width;
* any operation in version 1 or 0.

The argument is a simulation. `readEncodedValue_operand` is about the operands,
`opTable_of_opcodes` compares the tables, `handleOp_execute` has one case for each
operation, and `decode_eq_step_iff` is the step.
-/

namespace AndroidCore.Libunwindstack

open Lib List StackMachine Mnemonic Option
open BitVec (ofInt ofNat ofInt_natCast allOnes toNat_ofNat toNat_ofInt eq_of_toNat_eq)

variable {t : AddressType}

/-! ### Bytes and words -/

theorem and_0x80_ne_zero_iff (b : UInt8) : b &&& 0x80 ≠ 0 ↔ ¬ b.toNat < 128 := by
  have h : ∀ n : Fin 256, (n.val &&& 128 ≠ 0 ↔ ¬ n.val < 128) := by decide +kernel
  rw [← h ⟨b.toNat, b.toNat_lt⟩, Ne, ← UInt8.toNat_inj]
  rfl

theorem toNat_and_0x7f (b : UInt8) : (b &&& 0x7f).toNat = b.toNat % 128 := by
  have h : ∀ n : Fin 256, n.val &&& 127 = n.val % 128 := by decide +kernel
  exact h ⟨b.toNat, b.toNat_lt⟩

theorem and_0x40_ne_zero_iff (b : UInt8) : b &&& 0x40 ≠ 0 ↔ 64 ≤ b.toNat % 128 := by
  have h : ∀ n : Fin 256, (n.val &&& 64 ≠ 0 ↔ 64 ≤ n.val % 128) := by decide +kernel
  rw [← h ⟨b.toNat, b.toNat_lt⟩, Ne, ← UInt8.toNat_inj]
  rfl

/-- The seven bits of a byte, shifted. -/
theorem byteWord_shiftLeft (b : UInt8) (shift : Nat) :
    Section.byteWord (b &&& 0x7f) <<< shift = ofNat 64 (b.toNat % 128 * 2 ^ shift) := by
  apply eq_of_toNat_eq
  rw [BitVec.toNat_shiftLeft, Section.byteWord, BitVec.toNat_setWidth, toNat_ofNat,
    Nat.shiftLeft_eq, UInt8.toNat_toBitVec, toNat_and_0x7f]
  have : b.toNat % 128 % 2 ^ 64 = b.toNat % 128 := Nat.mod_eq_of_lt (by omega)
  rw [this]

/-! ### The LEB128 loop -/

variable {v n pos : Nat}

/-- The loop over a LEB128 number. It fails if the number has a byte that would be shifted by 64
or more; the last byte has the sign of the signed number. -/
theorem leb128Loop_eq {bs : List UInt8} (h : uleb128 bs = some (v, n)) (tail : List UInt8)
    (shift : Nat) (acc : Word) :
    ∃ last, Section.leb128Loop (bs ++ tail) shift acc
        = (if shift + 7 * n < 64 + 7
          then .ok (acc + ofNat 64 (v * 2 ^ shift), shift + 7 * n, last)
          else .error .undefined) ∧
      ∀ z, sleb128 bs = some (z, n) → (last &&& 0x40 ≠ 0 ↔ z < 0) := by
  induction bs generalizing v n shift acc with
  | nil => cases h
  | cons b rest ih =>
    have hbyte := b.toNat_lt
    rw [uleb128] at h
    rw [cons_append, Section.leb128Loop]
    simp only [byteWord_shiftLeft]
    by_cases hb : b.toNat < 128
    · rw [if_pos hb] at h
      cases h
      rw [if_neg (c := b &&& 0x80 ≠ 0) (by rw [and_0x80_ne_zero_iff]; exact not_not.mpr hb)]
      refine ⟨b, by rw [Nat.mod_eq_of_lt hb]; split_ifs <;> first | rfl | omega, ?_⟩
      intro z hz
      rw [sleb128, if_pos hb] at hz
      rw [and_0x40_ne_zero_iff]
      cases hz
      split_ifs <;> omega
    · rw [if_neg hb] at h
      rw [if_pos ((and_0x80_ne_zero_iff b).mpr hb)]
      cases hrest : uleb128 rest with
      | none =>
        rw [hrest] at h
        cases h
      | some vn =>
        obtain ⟨v', n'⟩ := vn
        rw [hrest] at h
        cases h
        obtain ⟨last, hloop, hsign⟩ := ih hrest (shift + 7)
          (acc + ofNat 64 (b.toNat % 128 * 2 ^ shift))
        refine ⟨last, ?_, ?_⟩
        · rw [hloop, show shift + 7 + 7 * n' = shift + 7 * (n' + 1) by ring, BitVec.add_assoc,
            ← BitVec.ofNat_add, show b.toNat % 128 * 2 ^ shift + v' * 2 ^ (shift + 7)
              = (b.toNat - 128 + 128 * v') * 2 ^ shift by
                rw [show b.toNat - 128 = b.toNat % 128 by omega]; ring]
          split_ifs <;> first | rfl | omega
        · intro z hz
          rw [sleb128, if_neg hb] at hz
          cases hsrest : sleb128 rest with
          | none =>
            rw [hsrest] at hz
            cases hz
          | some zn =>
            obtain ⟨z', k⟩ := zn
            rw [hsrest] at hz
            cases hz
            rw [hsign z' hsrest]
            omega

/-- Sign extension from bit `7 * n` on. -/
theorem or_allOnes_shiftLeft {k : Nat} (hv : v < 2 ^ k) :
    ofNat 64 v ||| allOnes 64 <<< k = ofInt 64 ((v : Int) - 2 ^ k) := by
  have hdisj : ofNat 64 v &&& allOnes 64 <<< k = 0#64 := by
    apply BitVec.eq_of_getLsbD_eq
    intro i hi
    simp only [BitVec.getLsbD_and, BitVec.getLsbD_ofNat]
    by_cases hik : i < k
    · simp [hik]
    · have : v.testBit i = false :=
        Nat.testBit_lt_two_pow (hv.trans_le (Nat.pow_le_pow_right (by decide) (by omega)))
      simp [this]
  rw [← BitVec.add_eq_or_of_and_eq_zero _ _ hdisj]
  have hones : allOnes 64 <<< k = ofInt 64 (-(2 ^ k)) := by
    have hpow : BitVec.twoPow 64 k = ofInt 64 (2 ^ k) := by
      rw [show (2 ^ k : Int) = (2 ^ k : Nat) by rfl, ofInt_natCast]
      apply eq_of_toNat_eq
      rw [BitVec.toNat_twoPow, toNat_ofNat]
    rw [BitVec.shiftLeft_eq_mul_twoPow, ← BitVec.neg_one_eq_allOnes, BitVec.neg_mul,
      BitVec.one_mul, hpow, BitVec.ofInt_neg]
  rw [hones, ← ofInt_natCast, ← BitVec.ofInt_add]
  rfl

/-! ### Reading an expression out of the section -/

/-- The expression is in the section, from the offset `start` on. -/
structure Placed (s : Section) (start : Word) (expr : List UInt8) : Prop where
  fits : start.toNat + expr.length ≤ s.bytes.length
  bytes_eq : (s.bytes.drop start.toNat).take expr.length = expr

/-- The offset of a position in the expression. -/
def offsetAt (start : Word) (pos : Nat) : Word := start + ofNat 64 pos

section

variable {s : Section} {start : Word} {expr : List UInt8}

theorem offsetAt_add (start : Word) (pos n : Nat) :
    offsetAt start pos + ofNat 64 n = offsetAt start (pos + n) := by
  unfold offsetAt
  rw [BitVec.add_assoc, ← BitVec.ofNat_add]

theorem offsetAt_zero (start : Word) : offsetAt start 0 = start := by
  simp [offsetAt]

variable (h : Placed s start expr) (hpos : pos ≤ expr.length)
include h hpos

theorem Placed.toNat_offsetAt : (offsetAt start pos).toNat = start.toNat + pos := by
  have hlt := s.length_lt
  have hfits := h.fits
  unfold offsetAt
  rw [BitVec.toNat_add, toNat_ofNat, Nat.mod_eq_of_lt (show pos < 2 ^ 64 by omega)]
  exact Nat.mod_eq_of_lt (by omega)

/-- From a position on, the section holds the rest of the expression and then something
else. -/
theorem Placed.drop_eq :
    s.bytes.drop (offsetAt start pos).toNat
      = expr.drop pos ++ s.bytes.drop (start.toNat + expr.length) := by
  have hsplit := take_append_drop expr.length (s.bytes.drop start.toNat)
  rw [h.bytes_eq, drop_drop] at hsplit
  rw [h.toNat_offsetAt hpos, ← drop_drop, ← hsplit, drop_append_of_le_length hpos]

theorem Placed.readBytes (hn : n ≤ (expr.drop pos).length) :
    s.readBytes (offsetAt start pos) n
      = .ok ((expr.drop pos).take n, offsetAt start (pos + n)) := by
  have hfits := h.fits
  rw [length_drop] at hn
  unfold Section.readBytes
  rw [h.drop_eq hpos, h.toNat_offsetAt hpos, if_pos (by omega), offsetAt_add,
    take_append_of_le_length (by rw [length_drop]; exact hn)]

omit hpos in
/-- The byte at a position that is not the end. -/
theorem Placed.readByte {b : UInt8} {rest : List UInt8} (hbytes : expr.drop pos = b :: rest) :
    pos < expr.length ∧
      s.readBytes (offsetAt start pos) 1 = .ok ([b], offsetAt start (pos + 1)) := by
  have hlen := congrArg length hbytes
  rw [length_drop, length_cons] at hlen
  refine ⟨by omega, ?_⟩
  rw [h.readBytes (by omega) (by rw [length_drop]; omega), hbytes]
  rfl

/-- The operands that `DwarfMemory` can read: a LEB128 number has at most ten bytes, and
a negative one at most nine. -/
def StackMachine.OperandKind.Readable (kind : OperandKind) (value : Int)
    (n : Nat) : Prop :=
  match kind with
  | .uleb128 => n ≤ 10
  | .sleb128 => n ≤ 9 ∨ n = 10 ∧ 0 ≤ value
  | _ => True

/-- The encoding that the table of `DwarfOp` has for a kind of operand. -/
def StackMachine.OperandKind.encoding : OperandKind → Encoding
  | .address => .absptr
  | .unsigned 1 => .udata1
  | .unsigned 2 => .udata2
  | .unsigned 4 => .udata4
  | .unsigned _ => .udata8
  | .signed 1 => .sdata1
  | .signed 2 => .sdata2
  | .signed 4 => .sdata4
  | .signed _ => .sdata8
  | .uleb128 => .uleb128
  | .sleb128 => .sleb128

/-- The sizes of the numbers of a fixed size. -/
def StackMachine.OperandKind.Sized : OperandKind → Prop
  | .unsigned n | .signed n => n = 1 ∨ n = 2 ∨ n = 4 ∨ n = 8
  | _ => True

/-- A number of a fixed size, read without and with a sign. -/
theorem readFixed {size : Nat} (hv : fixed size (expr.drop pos) = some (v, n)) :
    s.readUnsigned size (offsetAt start pos)
      = .ok (ofInt 64 v, offsetAt start (pos + n)) ∧
    s.readSigned size (offsetAt start pos)
      = .ok (ofInt 64 (ofNat (8 * size) v).toInt, offsetAt start (pos + n)) := by
  unfold fixed at hv
  split at hv
  · rename_i hle
    cases hv
    rw [Section.readUnsigned, Section.readSigned, h.readBytes hpos hle]
    exact ⟨rfl, rfl⟩
  · cases hv

/-- The loop over a LEB128 operand. -/
theorem Placed.leb128Loop (hv : uleb128 (expr.drop pos) = some (v, n)) :
    ∃ last, Section.leb128Loop (s.bytes.drop (offsetAt start pos).toNat) 0 0
        = (if n ≤ 10 then .ok (ofNat 64 v, 7 * n, last) else .error .undefined) ∧
      ∀ z, sleb128 (expr.drop pos) = some (z, n) → (last &&& 0x40 ≠ 0 ↔ z < 0) := by
  obtain ⟨last, hloop, hsign⟩ :=
    leb128Loop_eq hv (s.bytes.drop (start.toNat + expr.length)) 0 0
  refine ⟨last, ?_, hsign⟩
  rw [h.drop_eq hpos, hloop, Nat.zero_add, Nat.pow_zero, Nat.mul_one,
    show 0 + ofNat 64 v = _ from BitVec.zero_add _]
  exact if_congr (by omega) rfl rfl

/-- An unsigned LEB128 operand. -/
theorem readULEB128_operand (hv : uleb128 (expr.drop pos) = some (v, n)) :
    s.readULEB128 (offsetAt start pos)
      = if n ≤ 10 then .ok (ofInt 64 v, offsetAt start (pos + n))
        else .error .undefined := by
  obtain ⟨last, hloop, -⟩ := h.leb128Loop hpos hv
  unfold Section.readULEB128
  rw [hloop]
  by_cases hn : n ≤ 10
  · simp [if_pos hn, offsetAt_add]
  · simp [if_neg hn]

/-- A signed LEB128 operand. -/
theorem readSLEB128_operand {v : Int} (hv : sleb128 (expr.drop pos) = some (v, n)) :
    (OperandKind.sleb128.Readable v n →
      s.readSLEB128 (offsetAt start pos)
        = .ok (ofInt 64 v, offsetAt start (pos + n))) ∧
    (¬ OperandKind.sleb128.Readable v n →
      s.readSLEB128 (offsetAt start pos) = .error .undefined) := by
  obtain ⟨u, hu, huv⟩ := sleb128_eq hv
  obtain ⟨last, hloop, hsign⟩ := h.leb128Loop hpos hu
  unfold OperandKind.Readable Section.readSLEB128
  rw [hloop]
  by_cases hn : n ≤ 10
  · simp only [if_pos hn, Nat.mul_div_cancel_left n (show 0 < 7 by decide), offsetAt_add]
    by_cases hneg : v < 0
    · rw [if_pos ((hsign v hv).mpr hneg)]
      rw [if_pos hneg] at huv
      by_cases hn9 : n ≤ 9
      · rw [if_neg (by omega), or_allOnes_shiftLeft (uleb128_lt hu), ← huv]
        exact ⟨fun _ => rfl, fun hnot => absurd (.inl hn9) hnot⟩
      · rw [if_pos (by omega)]
        exact ⟨fun hr => by omega, fun _ => rfl⟩
    · rw [if_neg (fun hl => hneg ((hsign v hv).mp hl))]
      rw [if_neg hneg] at huv
      rw [huv]
      exact ⟨fun _ => rfl, fun hnot => absurd (by omega) hnot⟩
  · rw [if_neg hn]
    exact ⟨fun hr => by omega, fun _ => rfl⟩

/-- What `DwarfMemory` reads for an operand of the expression. -/
theorem readEncodedValue_operand {v : Int} {kind : OperandKind} (hsized : kind.Sized)
    (hv : operand t kind (expr.drop pos) = some (v, n)) :
    (kind.Readable v n →
      s.readEncodedValue t kind.encoding (offsetAt start pos)
        = .ok (ofInt 64 v, offsetAt start (pos + n))) ∧
    (¬ kind.Readable v n →
      s.readEncodedValue t kind.encoding (offsetAt start pos) = .error .undefined) := by
  cases kind with
  | address =>
    obtain ⟨⟨v', n'⟩, hfixed, heq⟩ := map_eq_some_iff.mp hv
    cases heq
    exact ⟨fun _ => (readFixed h hpos hfixed).1, fun hnot => absurd trivial hnot⟩
  | unsigned size | signed size =>
    obtain ⟨⟨v', n'⟩, hfixed, heq⟩ := map_eq_some_iff.mp hv
    cases heq
    obtain ⟨hunsigned, hsigned⟩ := readFixed h hpos hfixed
    refine ⟨fun _ => ?_, fun hnot => absurd trivial hnot⟩
    rcases hsized with rfl | rfl | rfl | rfl <;> first | exact hunsigned | exact hsigned
  | uleb128 =>
    obtain ⟨⟨v', n'⟩, huleb, heq⟩ := map_eq_some_iff.mp hv
    cases heq
    have hread := readULEB128_operand h hpos huleb
    exact ⟨fun hr => hread.trans (if_pos hr), fun hnot => hread.trans (if_neg hnot)⟩
  | sleb128 => exact readSLEB128_operand h hpos hv

end

/-! ### The tables -/

/-- The handler of an operation. -/
def StackMachine.Mnemonic.handler : Mnemonic → OpHandler
  | .const => .push
  | .lit _ => .lit
  | .deref => .deref
  | .derefSize => .derefSize
  | .dup => .dup
  | .drop => .drop
  | .opOver => .opOver
  | .pick => .pick
  | .swap => .swap
  | .rot => .rot
  | .abs => .abs
  | .and => .and
  | .div => .div
  | .minus => .minus
  | .mod => .mod
  | .mul => .mul
  | .neg => .neg
  | .not => .not
  | .or => .or
  | .plus => .plus
  | .plusUconst => .plusUconst
  | .shl => .shl
  | .shr => .shr
  | .shra => .shra
  | .xor => .xor
  | .bra => .bra
  | .eq => .eq
  | .ge => .ge
  | .gt => .gt
  | .le => .le
  | .lt => .lt
  | .ne => .ne
  | .skip => .skip
  | .nop => .nop

/-- The number of stack elements an operation needs before it looks at its operand. -/
def StackMachine.Mnemonic.required : Mnemonic → Nat
  | .const | .lit _ | .pick | .skip | .nop => 0
  | .deref | .derefSize | .dup | .drop | .abs | .neg | .not | .plusUconst | .bra => 1
  | .rot => 3
  | _ => 2

/-- The operands an operation can have. -/
def StackMachine.Mnemonic.Takes (mnemonic : Mnemonic)
    (kind : Option OperandKind) : Prop :=
  match mnemonic with
  | .const => ∃ k, kind = some k ∧ k.Sized
  | .plusUconst => kind = some .uleb128
  | .pick | .derefSize => kind = some (.unsigned 1)
  | .bra | .skip => kind = some (.signed 2)
  | _ => kind = none

variable {mnemonic : Mnemonic}

/-- The table of `DwarfOp` has the opcodes of the machine. -/
theorem opTable_of_opcodes {op : Nat} {kind : Option OperandKind}
    (h : opcodes op = some (mnemonic, kind)) :
    opTable op = some ⟨mnemonic.handler, 2, mnemonic.required,
        kind.toList.map OperandKind.encoding⟩ ∧
      mnemonic.Takes kind ∧ ∀ v, mnemonic = .lit v → v = op - 0x30 := by
  unfold opcodes at h
  split at h
  all_goals first
    | (cases h
       exact ⟨rfl, rfl, nofun⟩)
    | (cases h
       exact ⟨rfl, ⟨_, rfl, by simp [OperandKind.Sized]⟩, nofun⟩)
    | skip
  split at h
  · rename_i hlit
    cases h
    refine ⟨?_, rfl, fun v hv => by cases hv; rfl⟩
    obtain ⟨hle, hlt⟩ := hlit
    interval_cases op <;> rfl
  · cases h

theorem sized_of_takes {kind : Option OperandKind} (h : mnemonic.Takes kind) :
    ∀ k ∈ kind, k.Sized := by
  intro k hk
  cases hk
  cases mnemonic with
  | const =>
    obtain ⟨k', hk', hsized⟩ := h
    cases hk'
    exact hsized
  | plusUconst => cases h; trivial
  | pick | derefSize => cases h; exact .inl rfl
  | bra | skip => cases h; exact .inr (.inl rfl)
  | _ => cases h

variable {op : Operation}

/-- What the machine fetches. -/
theorem fetch_eq_some {bytes : List UInt8} (h : StackMachine.fetch t bytes = some op) :
    ∃ b rest, bytes = b :: rest ∧
      opcodes b.toNat = some (op.mnemonic, op.kind) ∧
      ((op.kind = none ∧ op.length = 1) ∨
        ∃ k n, op.kind = some k ∧ op.length = n + 1 ∧
          operand t k rest = some (op.value, n)) := by
  unfold StackMachine.fetch at h
  split at h
  · cases h
  · rename_i b rest
    split at h
    · cases h
    · rename_i mnemonic hop
      cases h
      exact ⟨b, rest, rfl, hop, .inl ⟨rfl, rfl⟩⟩
    · rename_i mnemonic k hop
      split at h
      · cases h
      · rename_i value n hoperand
        cases h
        exact ⟨b, rest, rfl, hop, .inr ⟨k, n, rfl, rfl, hoperand⟩⟩

/-- The operand can be read by `DwarfMemory`. -/
def StackMachine.Operation.Readable (op : Operation) : Prop :=
  ∀ k ∈ op.kind, k.Readable op.value (op.length - 1)

/-- The operands that `Decode` passes to the handler. -/
def StackMachine.Operation.operands (t : AddressType) (op : Operation) : List (Address t) :=
  op.kind.toList.map fun _ => ofInt t.bits op.value

theorem bits_le (t : AddressType) : 16 ≤ t.bits ∧ t.bits ≤ 64 := by
  cases t <;> decide

theorem setWidth_ofInt {w w' : Nat} (h : w' ≤ w) (v : Int) :
    (ofInt w v).setWidth w' = ofInt w' v := by
  apply eq_of_toNat_eq
  rw [BitVec.toNat_setWidth, toNat_ofInt, toNat_ofInt]
  have hdvd : ((2 ^ w' : Nat) : Int) ∣ (2 ^ w : Nat) :=
    Int.natCast_dvd_natCast.mpr (Nat.pow_dvd_pow 2 h)
  have hnonneg : 0 ≤ v % (2 ^ w : Nat) :=
    Int.emod_nonneg _ (by exact_mod_cast (Nat.two_pow_pos w).ne')
  rw [← Int.emod_emod_of_dvd v hdvd, Int.toNat_emod hnonneg (Int.natCast_nonneg _),
    Int.toNat_natCast]

section

variable {s : Section} {start : Word} {expr : List UInt8}

/-- `Decode` reads the operation of the machine, and hands it to its handler. -/
theorem decode_fetch (h : Placed s start expr) (m : Memory) (regs : Option (RegsImpl t))
    {version : UInt8} (hversion : 2 ≤ version.toNat)
    (hfetch : StackMachine.fetch t (expr.drop pos) = some op) {stack : List (Address t)}
    (hreq : op.mnemonic.required ≤ stack.length) :
    ∃ curOp, (∀ v, op.mnemonic = .lit v → v = curOp - 0x30) ∧ op.mnemonic.Takes op.kind ∧
      (op.Readable → decode s m regs version ⟨offsetAt start pos, stack, false⟩
        = handleOp m regs op.mnemonic.handler curOp (op.operands t)
            ⟨offsetAt start (pos + op.length), stack, false⟩) ∧
      (¬ op.Readable → decode s m regs version ⟨offsetAt start pos, stack, false⟩
        = .error .undefined) := by
  obtain ⟨b, rest, hbytes, hop, hoperand⟩ := fetch_eq_some hfetch
  obtain ⟨htable, htakes, hlit⟩ := opTable_of_opcodes hop
  obtain ⟨hpos, hread⟩ := h.readByte hbytes
  have hrest : expr.drop (pos + 1) = rest := by
    rw [← drop_drop, hbytes]
    rfl
  refine ⟨b.toNat, hlit, htakes, ?_⟩
  unfold decode
  simp only [hread, htable]
  rw [if_neg (by omega), if_neg (by omega)]
  rcases hoperand with ⟨hkind, hlength⟩ | ⟨k, n, hkind, hlength, hoperand⟩
  · unfold Operation.Readable Operation.operands
    rw [hkind, hlength]
    exact ⟨fun _ => rfl, fun hnot => absurd (fun k hk => by cases hk) hnot⟩
  · rw [← hrest] at hoperand
    have hsized : k.Sized := sized_of_takes htakes k hkind
    have hvalue := readEncodedValue_operand h hpos hsized hoperand
    unfold Operation.Readable Operation.operands
    rw [hkind, hlength]
    constructor
    · intro hr
      have hr : k.Readable op.value n := hr k rfl
      simp only [toList_some, map_cons, map_nil, readOpOperands,
        hvalue.1 hr, bind, Except.bind, pure, Except.pure,
        setWidth_ofInt (bits_le t).2]
      rw [show pos + 1 + n = pos + (n + 1) by omega]
    · intro hr
      have hr : ¬ k.Readable op.value n := fun hk => hr fun k' hk' => by
        cases hk'
        exact hk
      simp only [toList_some, map_cons, readOpOperands, hvalue.2 hr]
      rfl

end

/-! ### The handlers -/

/-- The operations on which the handler does what the machine does. A branch that is not
taken has the offset zero; a shift is by less than the width; a quotient fits; and what
is ordered has one sign. -/
def StackMachine.Mnemonic.Tame (mnemonic : Mnemonic) (value : Int)
    (stack : List (Address t)) : Prop :=
  match mnemonic, stack with
  | .bra, top :: _ => top = 0 → value = 0
  | .shl, top :: _ => top.toNat < t.bits
  | .shr, top :: _ => top.toNat < t.bits
  | .shra, top :: _ => top.toNat < t.bits
  | .div, top :: x :: _ => ¬ (x = BitVec.intMin t.bits ∧ top = allOnes t.bits)
  | .ge, top :: x :: _ => x.msb = top.msb
  | .gt, top :: x :: _ => x.msb = top.msb
  | .le, top :: x :: _ => x.msb = top.msb
  | .lt, top :: x :: _ => x.msb = top.msb
  | _, _ => True

theorem bits_ne_zero (t : AddressType) : t.bits ≠ 0 := by
  cases t <;> decide

/-- Two truth values are the same exactly when the propositions are equivalent. -/
theorem boolToDwarfBool_eq_truth_iff {p q : Prop} [Decidable p] [Decidable q] :
    (boolToDwarfBool (decide p) : Address t) = truth q ↔ (p ↔ q) := by
  unfold boolToDwarfBool truth
  by_cases hp : p <;> by_cases hq : q <;> simp [hp, bits_ne_zero]

/-- The signed and the unsigned order agree on two values exactly when they have the same
sign. -/
theorem lt_iff_toInt_lt_iff (x y : Address t) : (x < y ↔ x.toInt < y.toInt) ↔ x.msb = y.msb := by
  have hx := x.isLt
  have hy := y.isLt
  have hxm := BitVec.msb_eq_decide x
  have hym := BitVec.msb_eq_decide y
  rw [BitVec.lt_def, BitVec.toInt_eq_msb_cond, BitVec.toInt_eq_msb_cond]
  have hpow : 2 ^ t.bits = 2 * 2 ^ (t.bits - 1) := by
    rw [← Nat.pow_succ']
    have := (bits_le t).1
    congr 1
    omega
  generalize 2 ^ t.bits = width at hx hy hpow ⊢
  cases hxs : x.msb <;> cases hys : y.msb <;>
    simp only [hxs, hys, Bool.false_eq, Bool.true_eq, decide_eq_false_iff_not,
      decide_eq_true_eq] at hxm hym <;>
    simp <;> omega

theorem le_iff_toInt_le_iff (x y : Address t) : (x ≤ y ↔ x.toInt ≤ y.toInt) ↔ x.msb = y.msb := by
  rw [← BitVec.not_lt, ← Int.not_lt, not_iff_not, lt_iff_toInt_lt_iff, eq_comm]

/-- The handlers of the operations on two elements. -/
theorem binaryOp_eq_iff {x top v : Address t} (rest : List (Address t)) (value : Int)
    (h : binary mnemonic x top = some v) :
    binaryOp mnemonic.handler x top = some (.ok v) ↔
      mnemonic.Tame value (top :: x :: rest) := by
  cases mnemonic with
  | div | mod =>
    unfold binary at h
    simp only at h
    split at h
    · cases h
    · simp_all [binaryOp, handler, Tame]
  | shl | shr | shra =>
    cases h
    simp only [binaryOp, handler, Tame]
    split <;> simp_all
  | ge | gt =>
    cases h
    simp only [binaryOp, handler, some.injEq, Except.ok.injEq,
      boolToDwarfBool_eq_truth_iff, le_iff_toInt_le_iff,
      lt_iff_toInt_lt_iff]
    exact eq_comm
  | le | lt =>
    cases h
    simp only [binaryOp, handler, Tame, some.injEq, Except.ok.injEq,
      boolToDwarfBool_eq_truth_iff, le_iff_toInt_le_iff, lt_iff_toInt_lt_iff]
  | eq | ne =>
    cases h
    simp only [binaryOp, handler, Tame, some.injEq, Except.ok.injEq, iff_true]
    rw [boolToDwarfBool_eq_truth_iff]
  | and | minus | mul | or | plus | xor =>
    cases h
    exact iff_of_true rfl trivial
  | _ => cases h

/-- The handlers of the operations on one element. -/
theorem unaryOp_eq {x v : Address t} (h : unary mnemonic x = some v) :
    unaryOp mnemonic.handler x = some v := by
  cases mnemonic with
  | abs =>
    cases h
    change some (if x.slt 0 then -x else x) = some (ofInt t.bits |x.toInt|)
    by_cases hneg : x.toInt < 0
    · rw [if_pos (by simpa [BitVec.slt] using hneg), abs_of_neg hneg, BitVec.ofInt_neg,
        BitVec.ofInt_toInt]
    · rw [if_neg (by simpa [BitVec.slt] using hneg), abs_of_nonneg (not_lt.mp hneg),
        BitVec.ofInt_toInt]
  | neg | not =>
    cases h
    rfl
  | _ => cases h

/-- The state of the interpreter at a state of the machine. -/
def interpreterState (start : Word) (st : State t) : OpState t :=
  ⟨offsetAt start st.pos, st.stack, false⟩

variable {r : State t} {m : Memory} {next : Nat}

/-- What the machine executes has the stack elements it needs. -/
theorem required_le_of_execute {length : Nat} {stack : List (Address t)}
    (h : StackMachine.execute m length op next stack = some r) :
    op.mnemonic.required ≤ stack.length := by
  obtain ⟨mnemonic, kind, value, n⟩ := op
  cases mnemonic <;> rcases stack with _ | ⟨a, _ | ⟨b, _ | ⟨c, rest⟩⟩⟩ <;>
    first
      | (simp [required]; done)
      | cases h

/-- The values of the operands that are an index or an offset. -/
def StackMachine.Operation.InRange (op : Operation) : Prop :=
  match op.kind with
  | some (.unsigned 1) => 0 ≤ op.value ∧ op.value < 256
  | some (.signed 2) => -2 ^ 15 ≤ op.value ∧ op.value < 2 ^ 15
  | _ => True

theorem inRange_of_fetch {bytes : List UInt8} (h : StackMachine.fetch t bytes = some op) :
    op.InRange := by
  obtain ⟨b, rest, _, _, hoperand⟩ := fetch_eq_some h
  unfold Operation.InRange
  rcases hoperand with ⟨hkind, _⟩ | ⟨k, n, hkind, _, hoperand⟩
  · rw [hkind]
    trivial
  · rw [hkind]
    split
    · rename_i heq
      cases heq
      obtain ⟨⟨v, n'⟩, hfixed, hv⟩ := map_eq_some_iff.mp hoperand
      unfold fixed at hfixed
      split at hfixed
      · cases hfixed
        have hlt := leValue_lt (rest.take 1)
        have hlen : (rest.take 1).length ≤ 1 := length_take_le ..
        have hpow : 256 ^ (rest.take 1).length ≤ 256 ^ 1 := Nat.pow_le_pow_right (by decide) hlen
        have hvalue : op.value = leValue (rest.take 1) := (congrArg Prod.fst hv).symm
        omega
      · cases hfixed
    · rename_i heq
      cases heq
      obtain ⟨⟨v, n'⟩, _, hv⟩ := map_eq_some_iff.mp hoperand
      have hvalue : op.value = (ofNat 16 v).toInt := (congrArg Prod.fst hv).symm
      rw [hvalue]
      exact ⟨BitVec.le_toInt _, BitVec.toInt_lt⟩
    · trivial

variable {value : Int}

/-- A jump of the interpreter to an offset inside the expression. -/
theorem offsetAt_jump (start : Word) (h : 0 ≤ next + value) :
    offsetAt start next + ofInt 64 value = offsetAt start (next + value).toNat := by
  unfold offsetAt
  rw [BitVec.add_assoc, ← ofInt_natCast, ← BitVec.ofInt_add, ← ofInt_natCast,
    Int.toNat_of_nonneg h]

/-- The offset of a branch goes through an `AddressType` and an `int16_t`. -/
theorem signExtend_offset (hlo : -2 ^ 15 ≤ value) (hhi : value < 2 ^ 15) :
    ((ofInt t.bits value).setWidth 16).signExtend 64 = ofInt 64 value := by
  rw [setWidth_ofInt (bits_le t).1, BitVec.signExtend,
    BitVec.toInt_ofInt_eq_self (by decide) hlo hhi]

/-- A jump of the machine is one of the interpreter. -/
theorem jump_eq_of_jump (start : Word) (hlo : -2 ^ 15 ≤ value) (hhi : value < 2 ^ 15)
    {length : Nat} {stack : List (Address t)} (h : jump length next value stack = some r) :
    OpState.jump ⟨offsetAt start next, stack, false⟩ ((ofInt t.bits value).setWidth 16)
      = interpreterState start r := by
  unfold jump at h
  split at h
  · rename_i hjump
    cases h
    simp [OpState.jump, interpreterState, signExtend_offset hlo hhi, offsetAt_jump start hjump.1]
  · cases h

/-- An index below 256 goes through an `AddressType`. -/
theorem toNat_ofInt_index (hlo : 0 ≤ value) (hhi : value < 256) :
    (ofInt t.bits value).toNat = value.toNat := by
  have hpow : 2 ^ 16 ≤ 2 ^ t.bits := Nat.pow_le_pow_right (by decide) (bits_le t).1
  rw [toNat_ofInt, Int.emod_eq_of_lt hlo (by omega)]

/-- A load of the machine that succeeds is one of the interpreter. -/
theorem load_eq_of_load {addr v : Address t} {size : Nat} (h : load m addr size = some v)
    (st : OpState t) (rest : List (Address t)) :
    st.load m addr size rest = st.withStack (v :: rest) := by
  unfold load at h
  unfold OpState.load
  cases hread : m.read (addr.setWidth 64) size with
  | error bs =>
    rw [hread] at h
    cases h
  | ok bs =>
    rw [hread] at h
    cases h
    rfl

/-- The handler of an operation that the machine executes: it does the same exactly when
the operation is tame. -/
theorem handleOp_execute (regs : Option (RegsImpl t)) (start : Word) {length curOp : Nat}
    {stack : List (Address t)} (htakes : op.mnemonic.Takes op.kind) (hrange : op.InRange)
    (hlit : ∀ v, op.mnemonic = .lit v → v = curOp - 0x30)
    (h : StackMachine.execute m length op next stack = some r) :
    handleOp m regs op.mnemonic.handler curOp (op.operands t)
        ⟨offsetAt start next, stack, false⟩ = .ok (interpreterState start r) ↔
      op.mnemonic.Tame op.value stack := by
  obtain ⟨mnemonic, kind, value, n⟩ := op
  cases mnemonic with
  | const =>
    obtain ⟨k, rfl, _⟩ := htakes
    cases h
    exact iff_of_true rfl trivial
  | lit v =>
    cases h
    rw [hlit v rfl]
    exact iff_of_true rfl trivial
  | deref =>
    cases stack with
    | nil => cases h
    | cons addr rest =>
      obtain ⟨v, hload, rfl⟩ := map_eq_some_iff.mp h
      refine iff_of_true ?_ trivial
      simp only [handleOp, handler, load_eq_of_load hload]
      rfl
  | derefSize =>
    cases htakes
    obtain ⟨hlo, hhi⟩ : 0 ≤ value ∧ value < 256 := hrange
    cases stack with
    | nil => cases h
    | cons addr rest =>
      refine iff_of_true ?_ trivial
      simp only [StackMachine.execute] at h
      split at h
      · obtain ⟨v, hload, rfl⟩ := map_eq_some_iff.mp h
        have hindex := toNat_ofInt_index (t := t) hlo hhi
        have hcheck : ¬ ((ofInt t.bits value).toNat > t.size ∨
            ofInt t.bits value = 0) := by
          rintro (hgt | hzero)
          · omega
          · rw [hzero] at hindex
            simp at hindex
            omega
        rw [hindex] at hcheck
        simp only [handleOp, handler, Operation.operands, toList_some, map_cons, map_nil,
          if_neg hcheck, hindex, load_eq_of_load hload]
        rfl
      · cases h
  | pick =>
    cases htakes
    obtain ⟨hlo, hhi⟩ : 0 ≤ value ∧ value < 256 := hrange
    obtain ⟨x, hx, rfl⟩ := map_eq_some_iff.mp h
    have hindex := toNat_ofInt_index (t := t) hlo hhi
    have hlt := (List.getElem?_eq_some_iff.mp hx).1
    refine iff_of_true ?_ trivial
    simp only [handleOp, handler, Operation.operands, toList_some, map_cons, map_nil, hindex, hx]
    rw [if_neg (by simp only at hlt; omega)]
    rfl
  | plusUconst =>
    cases htakes
    cases stack with
    | nil => cases h
    | cons x rest =>
      cases h
      exact iff_of_true rfl trivial
  | bra =>
    cases htakes
    obtain ⟨hlo, hhi⟩ : -2 ^ 15 ≤ value ∧ value < 2 ^ 15 := hrange
    cases stack with
    | nil => cases h
    | cons top rest =>
      simp only [StackMachine.execute] at h
      simp only [handleOp, handler, Operation.operands, toList_some, map_cons, map_nil, Tame]
      by_cases htop : top = 0
      · -- The machine falls through, the code jumps backwards.
        rw [if_neg (by simpa using htop)] at h ⊢
        cases h
        simp only [OpState.jumpBack, interpreterState, signExtend_offset hlo hhi,
          Except.ok.injEq, OpState.mk.injEq, htop, forall_true_left]
        constructor
        · intro heq
          have hzero : ofInt 64 value = 0#64 := by
            bv_omega
          have hint := congrArg BitVec.toInt hzero
          rw [BitVec.toInt_ofInt_eq_self (by decide) (by omega) (by omega)] at hint
          simpa using hint
        · rintro rfl
          simp
      · rw [if_pos (by simpa using htop)] at h ⊢
        exact ⟨fun _ h0 => absurd h0 htop,
          fun _ => congrArg Except.ok (jump_eq_of_jump start hlo hhi h)⟩
  | skip =>
    cases htakes
    obtain ⟨hlo, hhi⟩ : -2 ^ 15 ≤ value ∧ value < 2 ^ 15 := hrange
    exact iff_of_true (congrArg Except.ok (jump_eq_of_jump start hlo hhi h)) trivial
  | nop | dup | drop | opOver | swap | rot =>
    -- none of them looks at more than three elements
    rcases stack with _ | ⟨x, _ | ⟨y, _ | ⟨z, rest⟩⟩⟩ <;> cases h <;>
      exact iff_of_true rfl trivial
  | abs | neg | not =>
    cases stack with
    | nil => cases h
    | cons x rest =>
      simp only [StackMachine.execute] at h
      obtain ⟨v, hunary, rfl⟩ := map_eq_some_iff.mp h
      have hop := unaryOp_eq hunary
      refine iff_of_true ?_ trivial
      simp only [handler] at hop ⊢
      simp only [handleOp, hop]
      rfl
  | _ =>
    rcases stack with _ | ⟨top, _ | ⟨x, rest⟩⟩
    · cases h
    · cases h
    · simp only [StackMachine.execute] at h
      obtain ⟨v, hbinary, rfl⟩ := map_eq_some_iff.mp h
      rw [← binaryOp_eq_iff rest value hbinary]
      simp only [handler, handleOp, unaryOp]
      generalize binaryOp _ x top = result
      rcases result with _ | (e | v') <;>
        simp [OpState.withStack, interpreterState]

/-! ### Whole expressions -/

/-- An operation the interpreter gets right: the version it is called with has opcodes at
all, the operand can be read, and the operation is tame. -/
def TameAt (version : UInt8) (expr : List UInt8) (st : State t) : Prop :=
  2 ≤ version.toNat ∧
    ∀ op, StackMachine.fetch t (expr.drop st.pos) = some op →
      op.Readable ∧ op.mnemonic.Tame op.value st.stack

section

variable {s : Section} {start : Word} {expr : List UInt8} {m : Memory}
  {regs : Option (RegsImpl t)} {version : UInt8}

theorem stateAt_succ (h : stateAt t m expr (n + 1) = some r) :
    ∃ st, stateAt t m expr n = some st ∧ step m expr st = some r :=
  bind_eq_some_iff.mp h

/-- The states before a state of the machine. -/
theorem stateAt_of_le {i : Nat} (hin : i ≤ n) (h : stateAt t m expr n = some r) :
    ∃ st, stateAt t m expr i = some st := by
  obtain ⟨k, rfl⟩ := Nat.exists_eq_add_of_le hin
  induction k generalizing r with
  | zero => exact ⟨r, h⟩
  | succ k ih =>
    obtain ⟨st, hst, _⟩ := stateAt_succ h
    exact ih (Nat.le_add_right i k) hst

variable (h : Placed s start expr) {st : State t}
include h

/-- No opcode of the machine is supported in version 0 or 1. -/
theorem decode_of_version_lt (hversion : version.toNat < 2) (hstep : step m expr st = some r) :
    decode s m regs version (interpreterState start st) = .error (.error .illegalValue) := by
  unfold step at hstep
  split at hstep
  · cases hstep
  · rename_i op hfetch
    obtain ⟨b, rest, hbytes, hop, _⟩ := fetch_eq_some hfetch
    unfold decode interpreterState
    simp only [(h.readByte hbytes).2, (opTable_of_opcodes hop).1]
    rw [if_pos (by omega)]

/-- One iteration of the interpreter is one operation of the machine exactly when the
operation is tame. -/
theorem decode_eq_step_iff (hstep : step m expr st = some r) :
    decode s m regs version (interpreterState start st) = .ok (interpreterState start r) ↔
      TameAt version expr st := by
  by_cases hversion : 2 ≤ version.toNat
  · unfold step at hstep
    split at hstep
    · cases hstep
    · rename_i op hfetch
      obtain ⟨curOp, hlit, htakes, hok, hundef⟩ := decode_fetch h m regs hversion hfetch
        (required_le_of_execute hstep)
      have hhandle := handleOp_execute regs start htakes (inRange_of_fetch hfetch) hlit hstep
      have htame : TameAt version expr st ↔
          op.Readable ∧ op.mnemonic.Tame op.value st.stack := by
        refine ⟨fun ht => ht.2 op hfetch, fun ht => ⟨hversion, fun op' hop' => ?_⟩⟩
        rw [hfetch] at hop'
        cases hop'
        exact ht
      rw [htame]
      by_cases hr : op.Readable
      · rw [show decode s m regs version (interpreterState start st) = _ from hok hr, hhandle]
        exact ⟨fun ht => ⟨hr, ht⟩, fun ht => ht.2⟩
      · rw [show decode s m regs version (interpreterState start st) = _ from hundef hr]
        exact ⟨fun heq => (nomatch heq), fun ht => absurd ht.1 hr⟩
  · rw [decode_of_version_lt h (by omega) hstep]
    exact ⟨fun heq => (nomatch heq), fun ht => absurd ht.1 hversion⟩

/-- The state of the interpreter after `n` calls of `Decode`. -/
def decodeAt (s : Section) (m : Memory) (regs : Option (RegsImpl t)) (version : UInt8)
    (start : Word) : Nat → Except Fault (OpState t)
  | 0 => .ok ⟨start, [], false⟩
  | n + 1 =>
    match decodeAt s m regs version start n with
    | .ok st => decode s m regs version st
    | .error e => .error e

/-- The interpreter follows the machine for `n` operations. -/
def Follows (s : Section) (m : Memory) (regs : Option (RegsImpl t)) (version : UInt8)
    (start : Word) (expr : List UInt8) (n : Nat) : Prop :=
  ∀ i ≤ n, ∀ st, stateAt t m expr i = some st →
    decodeAt s m regs version start i = .ok (interpreterState start st)

/-- The interpreter follows the machine exactly when every operation is tame. -/
theorem follows_iff {last : State t} (hlast : stateAt t m expr n = some last) :
    Follows s m regs version start expr n ↔
      ∀ i < n, ∀ st, stateAt t m expr i = some st → TameAt version expr st := by
  constructor
  · intro hfollows i hi st hst
    obtain ⟨r, hr⟩ := stateAt_of_le (show i + 1 ≤ n by omega) hlast
    obtain ⟨st', hst', hstep⟩ := stateAt_succ hr
    rw [hst] at hst'
    cases hst'
    have hnext := hfollows (i + 1) (by omega) r hr
    rw [decodeAt, hfollows i (by omega) st hst] at hnext
    exact (decode_eq_step_iff h hstep).mp hnext
  · intro htame i
    induction i with
    | zero =>
      intro _ st hst
      cases hst
      simp [decodeAt, interpreterState, offsetAt_zero]
    | succ i ih =>
      intro hi r hr
      obtain ⟨st, hst, hstep⟩ := stateAt_succ hr
      rw [decodeAt, ih (by omega) st hst]
      exact (decode_eq_step_iff h hstep).mpr (htame i (by omega) st hst)

/-- The positions of the machine before its last operation are inside the expression. -/
theorem pos_lt_of_step (hstep : step m expr st = some r) : st.pos < expr.length := by
  unfold step at hstep
  split at hstep
  · cases hstep
  · rename_i op hfetch
    obtain ⟨b, rest, hbytes, _⟩ := fetch_eq_some hfetch
    exact (h.readByte hbytes).1

/-- The loop of `Eval` runs along an expression it follows, as long as there are
iterations left. -/
theorem opLoop_follows {last : State t} (hlast : stateAt t m expr n = some last)
    (hfollows : Follows s m regs version start expr n) (left i : Nat) (hi : i ≤ n)
    (hleft : n ≤ left + i) {st : OpState t} (hst : decodeAt s m regs version start i = .ok st) :
    opLoop s m regs (offsetAt start expr.length) version left st
      = opLoop s m regs (offsetAt start expr.length) version (left + i - n)
          (interpreterState start last) := by
  -- By induction on the operations that are left.
  induction hk : n - i generalizing i left st with
  | zero =>
    obtain rfl : i = n := by omega
    rw [hfollows i le_rfl last hlast] at hst
    cases hst
    rw [show left + i - i = left by omega]
  | succ k ih =>
    obtain ⟨r, hr⟩ := stateAt_of_le (show i + 1 ≤ n by omega) hlast
    obtain ⟨st', hst', hstep⟩ := stateAt_succ hr
    have hnext := hfollows (i + 1) (by omega) r hr
    have hcur := hfollows i hi st' hst'
    rw [hst] at hcur
    cases hcur
    have hlt : (interpreterState start st').curOffset < offsetAt start expr.length := by
      rw [BitVec.lt_def, h.toNat_offsetAt le_rfl]
      change (offsetAt start st'.pos).toNat < _
      have hpos := pos_lt_of_step h hstep
      rw [h.toNat_offsetAt (by omega)]
      omega
    have hdecode : decode s m regs version (interpreterState start st')
        = .ok (interpreterState start r) := by
      rw [decodeAt, hst] at hnext
      exact hnext
    obtain ⟨left, rfl⟩ : ∃ j, left = j + 1 := ⟨left - 1, by omega⟩
    rw [opLoop, if_pos hlt, hdecode]
    simp only
    rw [ih left (i + 1) (by omega) (by omega) hnext (by omega)]
    congr 1
    omega

end

/-- For every expression of a section that the DWARF 4 machine evaluates with at most 1000
operations: the interpreter goes through the states of the machine if and only if every
operation on the way is tame, and `Eval` then succeeds with the stack of the machine. -/
theorem opEval_refines_iff {s : Section} {start : Word} {expr : List UInt8}
    (h : Placed s start expr) (m : Memory) (regs : Option (RegsImpl t)) (version : UInt8)
    {n : Nat} (hn : n ≤ 1000) {stack : List (Address t)} (heval : Evaluates m expr n stack) :
    (Follows s m regs version start expr n ↔
      ∀ i < n, ∀ st, stateAt t m expr i = some st → TameAt version expr st) ∧
    (Follows s m regs version start expr n →
      opEval s m regs start (offsetAt start expr.length) version
        = .ok ⟨offsetAt start expr.length, stack, false⟩) := by
  refine ⟨follows_iff h heval, fun hfollows => ?_⟩
  have hstop : ¬ (interpreterState start ⟨expr.length, stack⟩).curOffset
      < offsetAt start expr.length := BitVec.lt_irrefl _
  unfold opEval
  rw [opLoop_follows h heval hfollows 1000 0 (Nat.zero_le n) (by omega) rfl, opLoop,
    if_neg hstop]
  rfl

/-- `DW_OP_lit2 DW_OP_lit1 DW_OP_plus`. -/
def sumExpression : List UInt8 := [0x32, 0x31, 0x22]

/-- A section that holds `sumExpression` behind one other byte. -/
def sumSection : Section := ⟨0x00 :: sumExpression, by decide⟩

/-- Witness for `opEval_refines_iff`. -/
theorem opEval_refines_sumExpression :
    Evaluates (t := .uint64) unmapped sumExpression 3 [3] ∧
    (Follows (t := .uint64) sumSection unmapped none 4 1 sumExpression 3 ↔
      ∀ i < 3, ∀ st, stateAt .uint64 unmapped sumExpression i = some st →
        TameAt 4 sumExpression st) ∧
    (Follows (t := .uint64) sumSection unmapped none 4 1 sumExpression 3 →
      opEval (t := .uint64) sumSection unmapped none 1
          (offsetAt 1 sumExpression.length) 4
        = .ok ⟨offsetAt 1 sumExpression.length, [3], false⟩) :=
  ⟨rfl, opEval_refines_iff ⟨by decide, by decide⟩ unmapped none 4 (by decide) rfl⟩

/-- `DW_OP_lit0 DW_OP_bra(1) DW_OP_lit1`: the branch is not taken. -/
def branchExpression : List UInt8 := [0x30, 0x28, 0x01, 0x00, 0x31]

/-- The machine falls through to the last operation; the interpreter jumps back by one
byte, into the operand of the branch, which is no opcode. -/
theorem branchExpression_not_refined :
    Evaluates (t := .uint64) unmapped branchExpression 3 [1] ∧
    opEval (t := .uint64) ⟨branchExpression, by decide⟩ unmapped none 0 5 4
      = .error (.error .illegalValue) :=
  ⟨rfl, rfl⟩

end AndroidCore.Libunwindstack
