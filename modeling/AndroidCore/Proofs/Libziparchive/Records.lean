import AndroidCore.Libziparchive.ZipFormat

/-!
# `AndroidCore.Proofs.Libziparchive.Records`: records are read as they were written

For each packed record, `decode` finds the fields that `encode` wrote, whatever comes
behind them.
-/

namespace AndroidCore.Libziparchive

open Lib List

@[simp] theorem length_bytes16 (v : UInt16) : (bytes16 v).length = 2 := length_leBytes 2 _

@[simp] theorem length_bytes32 (v : UInt32) : (bytes32 v).length = 4 := length_leBytes 4 _

section

variable (v16 : UInt16) (v32 : UInt32) (rest : List UInt8)

@[simp] theorem u16_bytes16 : u16 (bytes16 v16 ++ rest) 0 = v16 := by
  have htake : ((bytes16 v16 ++ rest).drop 0).take 2 = bytes16 v16 := by
    rw [drop_zero, take_left' (length_bytes16 v16)]
  have hlt : v16.toNat < 256 ^ 2 := v16.toNat_lt
  rw [u16, htake, bytes16, leValue_leBytes, Nat.mod_eq_of_lt hlt, UInt16.ofNat_toNat]

@[simp] theorem u32_bytes32 : u32 (bytes32 v32 ++ rest) 0 = v32 := by
  have htake : ((bytes32 v32 ++ rest).drop 0).take 4 = bytes32 v32 := by
    rw [drop_zero, take_left' (length_bytes32 v32)]
  have hlt : v32.toNat < 256 ^ 4 := v32.toNat_lt
  rw [u32, htake, bytes32, leValue_leBytes, Nat.mod_eq_of_lt hlt, UInt32.ofNat_toNat]

end

/-- A field behind other bytes. -/
theorem u16_append {a : List UInt8} (rest : List UInt8) {off : Nat} (h : a.length ≤ off) :
    u16 (a ++ rest) off = u16 rest (off - a.length) := by
  rw [u16, u16, drop_append, drop_eq_nil_of_le h, nil_append]

theorem u32_append {a : List UInt8} (rest : List UInt8) {off : Nat} (h : a.length ≤ off) :
    u32 (a ++ rest) off = u32 rest (off - a.length) := by
  rw [u32, u32, drop_append, drop_eq_nil_of_le h, nil_append]

section

variable (v16 : UInt16) (v32 : UInt32) (rest : List UInt8) {off : Nat}

theorem u16_skip16 (h : 2 ≤ off) : u16 (bytes16 v16 ++ rest) off = u16 rest (off - 2) := by
  rw [u16_append rest (by simpa using h), length_bytes16]

theorem u16_skip32 (h : 4 ≤ off) : u16 (bytes32 v32 ++ rest) off = u16 rest (off - 4) := by
  rw [u16_append rest (by simpa using h), length_bytes32]

theorem u32_skip16 (h : 2 ≤ off) : u32 (bytes16 v16 ++ rest) off = u32 rest (off - 2) := by
  rw [u32_append rest (by simpa using h), length_bytes16]

theorem u32_skip32 (h : 4 ≤ off) : u32 (bytes32 v32 ++ rest) off = u32 rest (off - 4) := by
  rw [u32_append rest (by simpa using h), length_bytes32]

end

@[simp] theorem EocdRecord.length_encode (r : EocdRecord) : r.encode.length = size := by
  simp [encode, size]

@[simp] theorem CentralDirectoryRecord.length_encode (r : CentralDirectoryRecord) :
    r.encode.length = size := by
  simp [encode, size]

@[simp] theorem LocalFileHeader.length_encode (r : LocalFileHeader) : r.encode.length = size := by
  simp [encode, size]

@[simp] theorem DataDescriptor.length_encode (r : DataDescriptor) : r.encode.length = size := by
  simp [encode, size]

/-- The fields are found one after the other. -/
theorem EocdRecord.decode_encode (r : EocdRecord) (rest : List UInt8) :
    decode (r.encode ++ rest) = r := by
  simp [decode, encode, u16_skip16, u16_skip32, u32_skip16, u32_skip32]

theorem CentralDirectoryRecord.decode_encode (r : CentralDirectoryRecord)
    (rest : List UInt8) : decode (r.encode ++ rest) = r := by
  simp +decide only [decode, encode, append_assoc, u16_skip16, u16_skip32, u32_skip16,
    u32_skip32, u16_bytes16, u32_bytes32, Nat.reduceSub]

theorem LocalFileHeader.decode_encode (r : LocalFileHeader) (rest : List UInt8) :
    decode (r.encode ++ rest) = r := by
  simp [decode, encode, u16_skip16, u16_skip32, u32_skip16, u32_skip32]

theorem DataDescriptor.decode_encode (r : DataDescriptor) (rest : List UInt8) :
    decode (r.encode ++ rest) = r := by
  simp [decode, encode, u32_skip32]

/-- The signature of the end record is its first field. -/
theorem EocdRecord.u32_encode (r : EocdRecord) (rest : List UInt8) :
    u32 (r.encode ++ rest) 0 = r.eocdSignature := by
  rw [encode, append_assoc, u32_bytes32]

end AndroidCore.Libziparchive
