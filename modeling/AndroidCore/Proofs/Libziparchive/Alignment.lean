import AndroidCore.Proofs.Libziparchive.RoundTrip

/-!
# `AndroidCore.Proofs.Libziparchive.Alignment`: where the data of an entry begins

`StartAlignedEntryWithTime` accepts every power of two and keeps the padding in a `uint16_t`.
The extra field always has the length of the padding that is written. The data begins at a
multiple of the alignment exactly if a padding of 16 bits can bring it there
(`startAligned_iff`).
-/

namespace AndroidCore.Libziparchive

open Lib List ZipWriter

variable {τ : Type} {dz : Deflater τ} {w w' : ZipWriter τ}

/-- The data of the entry that `w'` has started begins at a multiple of the alignment, and the
extra field of its header has the length of the padding. -/
def StartsAligned (w w' : ZipWriter τ) (path : List UInt8) (alignment : UInt32) : Prop :=
  alignment.toNat ∣ w'.file.pos ∧ ∃ (header : LocalFileHeader) (padding : List UInt8),
    w'.file.bytes.take w'.file.pos
      = w.file.bytes.take w.file.pos ++ (header.encode ++ path ++ padding) ∧
    header.extraFieldLength.toNat = padding.length

/-- The least padding is taken. -/
theorem dvd_paddingFor {alignment : UInt32} {k offset padding : Nat}
    (hk : alignment.toNat = 2 ^ k) (hlt : padding < 2 ^ 16)
    (hdvd : alignment.toNat ∣ offset + padding) :
    alignment.toNat ∣ offset + (paddingFor offset alignment).toNat := by
  have hpos : alignment.toNat ≠ 0 := by
    rw [hk]
    exact (Nat.two_pow_pos k).ne'
  rw [paddingFor, hk, Nat.and_two_pow_sub_one_eq_mod, ← hk]
  split
  next hne =>
    have hmod := Nat.mod_lt offset (Nat.pos_of_ne_zero hpos)
    have hdiv := Nat.mod_add_div offset alignment.toNat
    -- no smaller padding brings the remainder to the alignment
    have hle : alignment.toNat ≤ offset % alignment.toNat + padding := by
      refine Nat.le_of_dvd (by omega) ?_
      rw [Nat.dvd_iff_mod_eq_zero, Nat.mod_add_mod]
      exact Nat.mod_eq_zero_of_dvd hdvd
    rw [UInt16.toNat_ofNat']
    exact ⟨offset / alignment.toNat + 1, by rw [Nat.mul_add]; omega⟩
  next hzero =>
    have halign : alignment ≠ 0 := fun h => hpos (congrArg UInt32.toNat h)
    exact Nat.dvd_of_mod_eq_zero (not_not.mp fun h => hzero ⟨halign, h⟩)

variable {path : List UInt8} {flags : Nat} {time : UInt16 × UInt16} {alignment : UInt32}

theorem Between.startAligned_pos {members : List Member} (h : Between dz w members)
    (hok : w.startAlignedEntryWithTime dz path flags time alignment = .ok w') :
    w'.file.pos = w.currentOffset + LocalFileHeader.size + path.length +
      (paddingFor (w.currentOffset + LocalFileHeader.size + path.length) alignment).toNat := by
  have hopen := (h.startAligned hok).1.opened
  rw [hopen.file.pos, ← hopen.offset]
  simp only [startAlignedEntryWithTime, ite_error_eq_ok_iff, Except.ok.injEq] at hok
  obtain ⟨-, -, -, -, -, rfl⟩ := hok
  rfl

/-- For every sequence of calls, every name and every power of two: an entry that is started is
aligned if and only if a padding of 16 bits can align it. -/
theorem startAligned_iff (hlaw : dz.Lawful) (sink : Sink) (calls : List WriterCall)
    (hcalls : (new sink).calls dz calls = .ok w) (k : Nat) (hk : alignment.toNat = 2 ^ k)
    (hok : w.startAlignedEntryWithTime dz path flags time alignment = .ok w') :
    StartsAligned w w' path alignment ↔ ∃ padding < 2 ^ 16,
      alignment.toNat ∣ w.currentOffset + LocalFileHeader.size + path.length + padding := by
  have hnew : Holds dz (new sink) ⟨[], none⟩ := .inl ⟨[], between_new dz sink, rfl⟩
  rcases (hnew.calls hlaw hcalls).1 with ⟨members, hb, -⟩ | ⟨members, payload, data, hin, -⟩
  · obtain ⟨hin, hstarted⟩ := hb.startAligned hok
    have hseek : w'.seekable = w.seekable := congrArg Sink.isReg hstarted.sink
    have htake := hin.opened.file.take
    rw [append_nil, FileEntry.startBytes, hstarted.path, hseek, ← hb.file.take] at htake
    have hextra : (copyFromFileEntry w'.currentFileEntry true).extraFieldLength.toNat
        = w'.currentFileEntry.paddingLength.toNat :=
      Nat.mod_eq_of_lt hin.opened.padding
    rw [StartsAligned, and_iff_left ⟨_, _, htake, hextra.trans length_replicate.symm⟩,
      hb.startAligned_pos hok]
    constructor
    · exact fun hdvd => ⟨_, UInt16.toNat_lt _, hdvd⟩
    · rintro ⟨padding, hlt, hdvd⟩
      exact dvd_paddingFor hk hlt hdvd
  · -- inside an entry none is started
    rw [startAlignedEntryWithTime, if_pos (by rw [hin.opened.state]; decide)] at hok
    cases hok

/-- An entry with three bytes. -/
def storedEntry : List WriterCall :=
  [.startEntry [98] 0 (0, 33), .writeBytes [1, 2, 3] 9, .finishEntry 9]

/-- An entry behind it, at a page. -/
theorem startAligned_page :
    ∃ w w' : ZipWriter _, (new regularFile).calls markDeflater storedEntry = .ok w ∧
      w.startAlignedEntryWithTime markDeflater [97] 0 (0, 33) 4096 = .ok w' ∧
      StartsAligned w w' [97] 4096 := by
  obtain ⟨w, hcalls, w', hok, hoffset⟩ : ∃ w, (new regularFile).calls markDeflater storedEntry
      = .ok w ∧ ∃ w', w.startAlignedEntryWithTime markDeflater [97] 0 (0, 33) 4096 = .ok w' ∧
        w.currentOffset = 34 := ⟨_, rfl, _, rfl, rfl⟩
  refine ⟨w, w', hcalls, hok, ?_⟩
  exact (startAligned_iff markDeflater_lawful regularFile storedEntry hcalls 12 rfl hok).mpr
    ⟨4031, by decide, by rw [hoffset]; decide⟩

/-- The first entry of an archive, at a multiple of `2 ^ 17`: it needs a padding of 131041 bytes,
and 65505 are written. -/
theorem startAligned_truncated :
    ∃ w', (new regularFile).startAlignedEntryWithTime markDeflater [97] 0 (0, 33) 131072
        = .ok w' ∧
      w'.file.pos = 2 ^ 16 ∧ ¬ StartsAligned (new regularFile) w' [97] 131072 := by
  obtain ⟨w', hok⟩ : ∃ w', (new regularFile).startAlignedEntryWithTime markDeflater [97] 0
      (0, 33) 131072 = .ok w' := ⟨_, rfl⟩
  have hpos : w'.file.pos = 2 ^ 16 :=
    (between_new markDeflater regularFile).startAligned_pos hok
  refine ⟨w', hok, hpos, ?_⟩
  rintro ⟨hdvd, -⟩
  rw [hpos] at hdvd
  revert hdvd
  decide

end AndroidCore.Libziparchive
