import AndroidCore.Proofs.Libunwindstack.DwarfOp

/-!
# `AndroidCore.Proofs.Libunwindstack.DwarfMemory`: LEB128 numbers read back

`ReadULEB128` inverts every encoding of up to ten bytes. `ReadSLEB128` inverts the shortest
encoding of a number exactly down to `-2 ^ 62` (`leb128_inverted_iff`): below that it has ten
bytes, and the sign is extended with a shift by 70.
-/

namespace AndroidCore.Libunwindstack

open Lib List

variable {bs : List UInt8} {v : Int} {k : Nat}

/-- The range of the numbers of `k + 1` bytes. -/
theorem sleb128_bounds (h : sleb128 bs = some (v, k + 1)) :
    -(64 * 128 ^ k) ≤ v ∧ v < 64 * 128 ^ k := by
  induction bs generalizing v k with
  | nil => cases h
  | cons b rest ih =>
    have hbyte := b.toNat_lt
    rw [sleb128] at h
    by_cases hb : b.toNat < 128
    · rw [if_pos hb] at h
      cases h
      split_ifs <;> omega
    · rw [if_neg hb] at h
      cases hrest : sleb128 rest with
      | none =>
        rw [hrest] at h
        cases h
      | some vn =>
        obtain ⟨v', n⟩ := vn
        rw [hrest] at h
        cases h
        obtain ⟨u, hu, -⟩ := sleb128_eq hrest
        obtain ⟨k, rfl⟩ := Nat.exists_eq_add_one_of_ne_zero (uleb128_length_le hu).1.ne'
        obtain ⟨hlo, hhi⟩ := ih hrest
        omega

/-- All of them have an encoding. -/
theorem exists_sleb128 (k : Nat) (hlo : -(64 * 128 ^ k) ≤ v) (hhi : v < 64 * 128 ^ k) :
    ∃ bs, bs.length = k + 1 ∧ sleb128 bs = some (v, k + 1) := by
  induction k generalizing v with
  | zero =>
    have hbyte : (UInt8.ofNat (v % 128).toNat).toNat = (v % 128).toNat :=
      UInt8.toNat_ofNat_of_lt' (by change _ < 256; omega)
    refine ⟨[UInt8.ofNat (v % 128).toNat], rfl, ?_⟩
    rw [sleb128, if_pos (by omega)]
    congr 2
    split_ifs <;> omega
  | succ k ih =>
    obtain ⟨rest, hlen, hrest⟩ := ih (v := v / 128) (by omega) (by omega)
    have hbyte : (UInt8.ofNat (128 + (v % 128).toNat)).toNat = 128 + (v % 128).toNat :=
      UInt8.toNat_ofNat_of_lt' (by change _ < 256; omega)
    refine ⟨UInt8.ofNat (128 + (v % 128).toNat) :: rest, by rw [length_cons, hlen], ?_⟩
    rw [sleb128, if_neg (by omega), hrest]
    simp only [Option.some.injEq, Prod.mk.injEq, and_true]
    omega

/-- The canonical encoding of a number: no other one is shorter. -/
structure Canonical (bs : List UInt8) (v : Int) : Prop where
  value : sleb128 bs = some (v, bs.length)
  shortest : ∀ bs', sleb128 bs' = some (v, bs'.length) → bs.length ≤ bs'.length

theorem Canonical.length_le (h : Canonical bs v) (k : Nat) (hlo : -(64 * 128 ^ k) ≤ v)
    (hhi : v < 64 * 128 ^ k) : bs.length ≤ k + 1 := by
  obtain ⟨bs', hlen, hbs'⟩ := exists_sleb128 k hlo hhi
  exact hlen ▸ h.shortest bs' (hlen ▸ hbs')

/-- Below `-2 ^ 62` there are ten bytes. -/
theorem nine_lt_length {n : Nat} (h : sleb128 bs = some (v, n)) (hv : v < -2 ^ 62) : 9 < n := by
  obtain ⟨u, hu, -⟩ := sleb128_eq h
  obtain ⟨k, rfl⟩ := Nat.exists_eq_add_one_of_ne_zero (uleb128_length_le hu).1.ne'
  have hlo := (sleb128_bounds h).1
  by_contra hle
  have hpow : (128 : Int) ^ k ≤ 128 ^ 8 := pow_le_pow_right₀ (by decide) (by omega)
  omega

/-- For every encoding in a section: the unsigned numbers of at most ten bytes are read back
with their length, and a signed 64-bit number in its canonical encoding is if and only if it is
at least `-2 ^ 62`. -/
theorem leb128_inverted_iff (s : Section) (offset : Word) (bs : List UInt8)
    (hplaced : Placed s offset bs) :
    (∀ n < 2 ^ 64, uleb128 bs = some (n, bs.length) → bs.length ≤ 10 →
      s.readULEB128 offset = .ok (BitVec.ofNat 64 n, offset + BitVec.ofNat 64 bs.length)) ∧
    ∀ v : Int, -2 ^ 63 ≤ v → v < 2 ^ 63 → Canonical bs v →
      (s.readSLEB128 offset = .ok (BitVec.ofInt 64 v, offset + BitVec.ofNat 64 bs.length) ↔
        -2 ^ 62 ≤ v) := by
  have hnext : offsetAt offset (0 + bs.length) = offset + BitVec.ofNat 64 bs.length := by
    rw [Nat.zero_add, offsetAt]
  refine ⟨fun n _ hn hlen => ?_, fun v hlo hhi hv => ?_⟩
  · have hread := readULEB128_operand hplaced (Nat.zero_le _) hn
    rw [if_pos hlen, offsetAt_zero, hnext] at hread
    exact hread
  · obtain ⟨hread, hundef⟩ := readSLEB128_operand hplaced (Nat.zero_le _) hv.value
    rw [offsetAt_zero, hnext] at hread
    rw [offsetAt_zero] at hundef
    have hten := hv.length_le 9 (by omega) (by omega)
    constructor
    · intro hok
      by_contra hlt
      have hnine := nine_lt_length hv.value (by omega)
      rw [hundef fun hr => by unfold StackMachine.OperandKind.Readable at hr; omega] at hok
      cases hok
    · intro hle
      refine hread ?_
      show bs.length ≤ 9 ∨ bs.length = 10 ∧ 0 ≤ v
      by_cases hneg : v < 0
      · exact .inl (hv.length_le 8 (by omega) (by omega))
      · omega

/-- A section with one number. -/
def numberSection (bs : List UInt8) (h : bs.length < 2 ^ 64) : Section := ⟨bs, h⟩

theorem leb128_inverted_minusOne :
    (numberSection [0x7f] (by decide)).readSLEB128 0 = .ok (BitVec.ofInt 64 (-1), 1) := by
  refine ((leb128_inverted_iff (numberSection [0x7f] (by decide)) 0 [0x7f] ⟨by decide, rfl⟩).2
    (-1) (by decide) (by decide) ⟨rfl, fun bs' h => ?_⟩).mpr (by decide)
  obtain ⟨u, hu, -⟩ := sleb128_eq h
  exact (uleb128_length_le hu).1

/-- The canonical encoding of `-2 ^ 63`. -/
def leastNumber : List UInt8 := [0x80, 0x80, 0x80, 0x80, 0x80, 0x80, 0x80, 0x80, 0x80, 0x7f]

theorem leastNumber_not_inverted :
    Canonical leastNumber (-2 ^ 63) ∧
      (numberSection leastNumber (by decide)).readSLEB128 0 = .error .undefined := by
  refine ⟨⟨by decide +kernel, fun _ h => ?_⟩, by decide +kernel⟩
  exact nine_lt_length h (by decide)

end AndroidCore.Libunwindstack
