import Mathlib.Algebra.Order.Ring.Int
import Mathlib.Tactic.Ring

/-!
# `AndroidCore.Lib.LittleEndian`: little-endian numbers

`leBytes k n` is the `k`-byte little-endian spelling of `n`, the bytes a
`memcpy` out of an unsigned integer of that width gives on a little-endian
machine. `leValue` reads a byte list back. `leValue_leBytes` is the round trip:
the value survives modulo `256 ^ k`, so a number that fits its width survives
unchanged. `leBytes_leValue` is the way back, from bytes to bytes.

A LEB128 number is a sequence of bytes with seven bits of the value each, the least
significant first; every byte but the last has its high bit set. `uleb128` and `sleb128`
read one off the front of a list of bytes and give the value and the number of bytes. The
value is a number, of any size: a reader with words of fixed width is compared with it.
-/

namespace AndroidCore.Lib

/-! ### Numbers of fixed width -/

/-- The `k` low bytes of `n`, least significant byte first. -/
def leBytes : Nat → Nat → List UInt8
  | 0, _ => []
  | k + 1, n => UInt8.ofNat n :: leBytes k (n / 256)

/-- The number a little-endian byte list spells. -/
def leValue : List UInt8 → Nat
  | [] => 0
  | b :: bs => b.toNat + 256 * leValue bs

@[simp] theorem length_leBytes (k n : Nat) : (leBytes k n).length = k := by
  induction k generalizing n with
  | zero => rfl
  | succ k ih => simp [leBytes, ih]

/-- Reading the bytes back gives the number modulo the width. -/
theorem leValue_leBytes (k n : Nat) : leValue (leBytes k n) = n % 256 ^ k := by
  induction k generalizing n with
  | zero => simp [leBytes, leValue, Nat.mod_one]
  | succ k ih =>
    have hbyte : (UInt8.ofNat n).toNat = n % 256 := by simp
    rw [leBytes, leValue, ih, hbyte, Nat.pow_succ', Nat.mod_mul]

theorem leValue_lt (bs : List UInt8) : leValue bs < 256 ^ bs.length := by
  induction bs with
  | nil => simp [leValue]
  | cons b bs ih =>
    have hb : b.toNat < 256 := b.toNat_lt
    rw [leValue, List.length_cons]
    omega

/-- Spelling out the number of a byte list gives the list back. -/
theorem leBytes_leValue (bs : List UInt8) : leBytes bs.length (leValue bs) = bs := by
  induction bs with
  | nil => rfl
  | cons b bs ih =>
    have hb : b.toNat < 256 := b.toNat_lt
    have hbyte : UInt8.ofNat (b.toNat + 256 * leValue bs) = b := by simp
    have hrest : (b.toNat + 256 * leValue bs) / 256 = leValue bs := by omega
    rw [List.length_cons, leValue, leBytes, hbyte, hrest, ih]

/-! ### LEB128 -/

/-- The unsigned number at the front of the bytes, and its length. -/
def uleb128 : List UInt8 → Option (Nat × Nat)
  | [] => none
  | b :: rest =>
    if b.toNat < 128 then some (b.toNat, 1)
    else
      match uleb128 rest with
      | some (v, n) => some (b.toNat - 128 + 128 * v, n + 1)
      | none => none

/-- The signed number at the front of the bytes, and its length: the last byte is one of
seven bits in two's complement. -/
def sleb128 : List UInt8 → Option (Int × Nat)
  | [] => none
  | b :: rest =>
    if b.toNat < 128 then
      some (if b.toNat < 64 then (b.toNat : Int) else (b.toNat : Int) - 128, 1)
    else
      match sleb128 rest with
      | some (v, n) => some (((b.toNat - 128 : Nat) : Int) + 128 * v, n + 1)
      | none => none

variable {bs : List UInt8} {n : Nat}

theorem uleb128_length_le {v : Nat} (h : uleb128 bs = some (v, n)) : 0 < n ∧ n ≤ bs.length := by
  induction bs generalizing v n with
  | nil => cases h
  | cons b rest ih =>
    rw [uleb128] at h
    split at h
    · cases h
      exact ⟨Nat.one_pos, by simp⟩
    · split at h
      · rename_i v' n' hrest
        cases h
        have := (ih hrest).2
        exact ⟨Nat.succ_pos n', by simpa using this⟩
      · cases h

/-- The value has seven bits for every byte. -/
theorem uleb128_lt {v : Nat} (h : uleb128 bs = some (v, n)) : v < 2 ^ (7 * n) := by
  induction bs generalizing v n with
  | nil => cases h
  | cons b rest ih =>
    rw [uleb128] at h
    split at h
    · cases h
      simpa
    · split at h
      · rename_i v' n' hrest
        cases h
        have hv := ih hrest
        have hb := b.toNat_lt
        have hpow : 2 ^ (7 * (n' + 1)) = 128 * 2 ^ (7 * n') := by ring
        omega
      · cases h

/-- The signed number is the unsigned one, less a power of two when it is negative. -/
theorem sleb128_eq {v : Int} (h : sleb128 bs = some (v, n)) :
    ∃ u : Nat, uleb128 bs = some (u, n) ∧ v = if v < 0 then (u : Int) - 2 ^ (7 * n) else u := by
  induction bs generalizing v n with
  | nil => cases h
  | cons b rest ih =>
    rw [sleb128] at h
    rw [uleb128]
    by_cases hb : b.toNat < 128
    · rw [if_pos hb] at h ⊢
      cases h
      refine ⟨b.toNat, rfl, ?_⟩
      split_ifs <;> omega
    · rw [if_neg hb] at h ⊢
      cases hrest : sleb128 rest with
      | none =>
        rw [hrest] at h
        cases h
      | some vn =>
        obtain ⟨v', n'⟩ := vn
        rw [hrest] at h
        cases h
        obtain ⟨u, hu, hv⟩ := ih hrest
        rw [hu]
        refine ⟨b.toNat - 128 + 128 * u, rfl, ?_⟩
        have hbyte := b.toNat_lt
        have hpow : (2 : Int) ^ (7 * (n' + 1)) = 128 * 2 ^ (7 * n') := by ring
        split_ifs at hv ⊢ <;> push_cast <;> omega

end AndroidCore.Lib
