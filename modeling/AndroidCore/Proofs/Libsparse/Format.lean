import AndroidCore.Libsparse.Chunk

/-!
# `AndroidCore.Proofs.Libsparse.Format`: headers and checksums

What is read back from an encoded header is the header (`decode_encode`), and
the checksum of two buffers in a row is the checksum of the second started from
that of the first (`sparseCrc32_append`), so the sizes of the buffers a checksum
is computed over do not matter.
-/

namespace AndroidCore.Libsparse

open Lib List

/-! ### Fixed-width fields -/

theorem ofNat_leValue_le32 (v : UInt32) : UInt32.ofNat (leValue (le32 v)) = v := by
  unfold le32
  rw [leValue_leBytes, Nat.mod_eq_of_lt (by exact v.toNat_lt), UInt32.ofNat_toNat]

theorem ofNat_leValue_le16 (v : UInt16) : UInt16.ofNat (leValue (le16 v)) = v := by
  unfold le16
  rw [leValue_leBytes, Nat.mod_eq_of_lt (by exact v.toNat_lt), UInt16.ofNat_toNat]

@[simp] theorem length_le32 (v : UInt32) : (le32 v).length = 4 := length_leBytes 4 _

@[simp] theorem length_le16 (v : UInt16) : (le16 v).length = 2 := length_leBytes 2 _

/-- A word at the front of a buffer. -/
theorem le32At_append (v : UInt32) (rest : List UInt8) : le32At (le32 v ++ rest) 0 = v :=
  ofNat_leValue_le32 v

/-! ### Headers -/

@[simp] theorem SparseHeader.length_encode (h : SparseHeader) :
    h.encode.length = sparseHeaderLen := by
  simp [encode, sparseHeaderLen]

@[simp] theorem ChunkHeader.length_encode (h : ChunkHeader) : h.encode.length = chunkHeaderLen := by
  simp [encode, chunkHeaderLen]

-- Every field starts at a fixed place of the encoding, so each equation below is
-- the round trip of one field.
theorem SparseHeader.decode_encode (h : SparseHeader) : decode h.encode = h := by
  have e₁ : (decode h.encode).magic = h.magic := ofNat_leValue_le32 _
  have e₂ : (decode h.encode).majorVersion = h.majorVersion := ofNat_leValue_le16 _
  have e₃ : (decode h.encode).minorVersion = h.minorVersion := ofNat_leValue_le16 _
  have e₄ : (decode h.encode).fileHdrSz = h.fileHdrSz := ofNat_leValue_le16 _
  have e₅ : (decode h.encode).chunkHdrSz = h.chunkHdrSz := ofNat_leValue_le16 _
  have e₆ : (decode h.encode).blkSz = h.blkSz := ofNat_leValue_le32 _
  have e₇ : (decode h.encode).totalBlks = h.totalBlks := ofNat_leValue_le32 _
  have e₈ : (decode h.encode).totalChunks = h.totalChunks := ofNat_leValue_le32 _
  have e₉ : (decode h.encode).imageChecksum = h.imageChecksum :=
    ofNat_leValue_le32 _
  simp_all [decode]

theorem ChunkHeader.decode_encode (h : ChunkHeader) : decode h.encode = h := by
  have e₁ : (decode h.encode).chunkType = h.chunkType := ofNat_leValue_le16 _
  have e₂ : (decode h.encode).reserved1 = h.reserved1 := ofNat_leValue_le16 _
  have e₃ : (decode h.encode).chunkSz = h.chunkSz := ofNat_leValue_le32 _
  have e₄ : (decode h.encode).totalSz = h.totalSz := ofNat_leValue_le32 _
  simp_all [decode]

/-- A number that an `int` holds is passed on unchanged. -/
theorem toInt_eq_of_lt {n : Nat} (h : n < 2 ^ 31) : toInt n = n := by
  unfold toInt
  rw [Int.bmod_eq_of_le (by omega) (by omega)]

/-! ### Runs of zeros and of fill words -/

@[simp] theorem length_zeros (n : Nat) : (zeros n).length = n := length_replicate

theorem zeros_append (a b : Nat) : zeros a ++ zeros b = zeros (a + b) :=
  replicate_append_replicate

@[simp] theorem length_fillBytes (val : UInt32) (n : Nat) : (fillBytes val n).length = n := by
  simp [fillBytes]

/-- Behind whole words a fill starts over. -/
theorem fillBytes_append (val : UInt32) {a : Nat} (h : 4 ∣ a) (b : Nat) :
    fillBytes val a ++ fillBytes val b = fillBytes val (a + b) := by
  obtain ⟨k, rfl⟩ := h
  unfold fillBytes
  rw [range_add, map_append, map_map]
  congr 1
  simp

/-! ### The checksum -/

@[simp] theorem sparseCrc32_nil (crc : UInt32) : sparseCrc32 crc [] = crc := by
  unfold sparseCrc32
  rw [foldl_nil, UInt32.xor_assoc, UInt32.xor_self, UInt32.xor_zero]

/-- The checksum of two buffers in a row. -/
theorem sparseCrc32_append (crc : UInt32) (a b : List UInt8) :
    sparseCrc32 crc (a ++ b) = sparseCrc32 (sparseCrc32 crc a) b := by
  unfold sparseCrc32
  rw [foldl_append, UInt32.xor_assoc _ 0xFFFFFFFF, UInt32.xor_self, UInt32.xor_zero]

/-- A checksum over pieces of a run, when the run can be cut behind any multiple
of the largest piece. -/
theorem foldl_pieces_crc {run : Nat → List UInt8} {cap : Nat} (hcap : 0 < cap)
    (hzero : run 0 = []) (hcut : ∀ b, run cap ++ run b = run (cap + b)) (len : Nat) (crc : UInt32) :
    (pieces cap len).foldl (fun crc n => sparseCrc32 crc (run n)) crc
      = sparseCrc32 crc (run len) := by
  suffices haux : ∀ fuel len crc, len ≤ fuel →
      (piecesAux cap fuel len).foldl (fun crc n => sparseCrc32 crc (run n)) crc
        = sparseCrc32 crc (run len) from haux len len crc (Nat.le_refl len)
  intro fuel
  induction fuel with
  | zero =>
    intro len crc hlen
    have : len = 0 := by omega
    subst this
    rw [hzero, sparseCrc32_nil]
    rfl
  | succ fuel ih =>
    intro len crc hlen
    rw [piecesAux]
    split
    · rename_i hz
      rw [hz, hzero, sparseCrc32_nil]
      rfl
    · rw [foldl_cons, ih _ _ (by omega), ← sparseCrc32_append]
      rcases Nat.le_total len cap with hle | hle
      · rw [Nat.min_eq_left hle, Nat.sub_self, hzero, append_nil]
      · rw [Nat.min_eq_right hle, hcut, Nat.add_sub_cancel' hle]

end AndroidCore.Libsparse
