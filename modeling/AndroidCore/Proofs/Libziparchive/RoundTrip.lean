import AndroidCore.Proofs.Libziparchive.Extract

/-!
# `AndroidCore.Proofs.Libziparchive.RoundTrip`: from the writer to the reader

`zip_roundTrip_iff`: an archive that the writer produced is opened by the reader, iterated
over and extracted as it was written, exactly if no entry has 4 GiB or more. The sizes of an
entry are fields of 32 bits, and a compressed entry can have more data than that although
the archive is small. The writer does not check it.

The last section has a small compression of its own that satisfies the assumptions about
zlib, and with it an entry of 4 GiB that is lost: `WriteBytes` passes its length to zlib in
32 bits.
-/

namespace AndroidCore.Libziparchive

open Lib List ZipWriter

section

variable {σ τ : Type}

/-- The reader opens the archive, iterates over exactly the entries, and finds and extracts
each of them as it was written. -/
def RoundTrips (dz : Deflater τ) (z : Zlib σ) (file : List UInt8) (contents : List Content) :
    Prop :=
  ∃ archive, openArchive file = .ok archive ∧
    (∃ fuel found, iterate file archive fuel (startIteration [] []) = .ok found ∧
      (found.map fun f => (nameOf file f.2, f.1.method, f.1.uncompressedLength.toNat)).Perm
        (contents.map fun c =>
          (c.path, if c.compress then kCompressDeflated else kCompressStored,
            c.data.length))) ∧
    ∀ c ∈ contents, ∃ entry, findEntry file archive c.path = .ok entry ∧
      entry.method = (if c.compress then kCompressDeflated else kCompressStored) ∧
      entry.uncompressedLength.toNat = c.data.length ∧
      (c.compress = false → entry.compressedLength.toNat = c.data.length) ∧
      entry.crc32 = dz.crc32 0 c.data ∧
      ∃ fuel, extractToMemory file z fuel entry entry.uncompressedLength.toNat = .ok c.data

variable {dz : Deflater τ} {z : Zlib σ} {seekable : Bool} {members : List Member}
  {file : List UInt8}

/-- The method of an entry. -/
theorem Member.Valid.method_eq {m : Member} (h : m.Valid dz) :
    (if m.content.compress then kCompressDeflated else kCompressStored)
      = m.entry.compressionMethod := by
  have hcompress : m.content.compress
      = decide (m.entry.compressionMethod = kCompressDeflated) := rfl
  rcases h.content with ⟨hmethod, -⟩ | ⟨hmethod, -⟩
  · rw [hcompress, hmethod]
    decide
  · rw [hcompress, hmethod]
    decide

/-- An archive without large entries is read as it was written. -/
theorem Written.roundTrips (hz : Inverts dz z) (h : Written dz seekable members file)
    (hsmall : ∀ m ∈ members, m.data.length < 2 ^ 32) :
    RoundTrips dz z file (members.map Member.content) := by
  obtain ⟨table, k, hopen, htable⟩ := h.openArchive_eq
  have hsize : ∀ m ∈ members, (m.zipEntry seekable).uncompressedLength.toNat = m.data.length := by
    intro m hm
    change m.entry.uncompressedSize.toNat = _
    rw [(h.valid m hm).describes.uncompressed, toNat_ofNat32 (hsmall m hm)]
  refine ⟨⟨directoryOf seekable members, table⟩, hopen, ?_, ?_⟩
  · -- The entry of a name, as the lookup finds it.
    let entryOf : ZipString → ZipEntry := fun s =>
      match findEntryAt file ⟨directoryOf seekable members, table⟩ s with
      | .ok entry => entry
      | _ => ⟨0, 0, 0, false, 0, 0, 0, 0⟩
    have hentry : ∀ p ∈ slotsOf seekable members, entryOf p.1 = p.2.zipEntry seekable := by
      intro p hp
      simp [entryOf, h.findEntryAt_eq hp]
    have hiterate := h.iterate_eq htable entryOf hentry (items table) 0 rfl
    refine ⟨_, _, hiterate, ?_⟩
    rw [map_map]
    have hperm := htable.items.map fun s =>
      (nameOf file s, (entryOf s).method, (entryOf s).uncompressedLength.toNat)
    refine hperm.trans (List.Perm.of_eq ?_)
    have hmembers : members.map Member.content
        = (slotsOf seekable members).map fun p => p.2.content := by
      conv_lhs => rw [← map_snd_slotsOf seekable members]
      rw [map_map]
      rfl
    rw [hmembers, map_map, map_map]
    refine map_congr_left fun p hp => ?_
    simp only [Function.comp]
    rw [hentry p hp, (h.recorded hp).nameOf_eq, hsize _ (mem_of_mem_slotsOf hp),
      (h.valid _ (mem_of_mem_slotsOf hp)).method_eq]
    rfl
  · intro c hc
    obtain ⟨m, hm, rfl⟩ := mem_map.mp hc
    have hvalid := h.valid m hm
    obtain ⟨fuel, hextract⟩ := h.extractToMemory_eq hm hz (hsmall m hm)
    refine ⟨m.zipEntry seekable, h.findEntry_eq htable hm, hvalid.method_eq.symm, hsize m hm,
      fun hstored => ?_, hvalid.describes.crc (hsmall m hm), fuel, ?_⟩
    · have hmethod := hvalid.method_eq
      rw [hstored] at hmethod
      have hcompressed := (h.payload_lt hm).2.1
      rcases hvalid.content with ⟨-, hpayload⟩ | ⟨hdeflated, -⟩
      · change m.entry.compressedSize.toNat = m.data.length
        rw [hcompressed, hpayload]
      · rw [hdeflated] at hmethod
        cases hmethod
    · rw [hsize m hm]
      exact hextract

/-- What the writer produces is read as it was written exactly if every entry has less than
4 GiB of data. -/
theorem zip_roundTrip_iff (hz : Inverts dz z) {sink : Sink} {calls : List WriterCall}
    (hok : writeArchive dz sink calls = .ok file) (hsize : file.length < 2 ^ 32)
    (hpos : 1 ≤ (survivors calls).length) (hcount : (survivors calls).length ≤ 65535)
    (hname : ∀ c ∈ survivors calls, c.path ≠ [] ∧ c.path.length ≤ 65535)
    (hdistinct : ((survivors calls).map Content.path).Nodup) :
    RoundTrips dz z file (survivors calls) ↔
      ∀ c ∈ survivors calls, c.data.length < 2 ^ 32 := by
  obtain ⟨members, hmembers, hvalid, hplaced, hfile⟩ := writeArchive_eq hz.lawful hok
  rw [← hmembers] at hpos hcount hname hdistinct ⊢
  rw [length_map] at hpos hcount
  have hcontent : ∀ m ∈ members, m.content ∈ members.map Member.content :=
    fun m hm => mem_map.mpr ⟨m, hm, rfl⟩
  constructor
  · -- The size of an entry is a number of 32 bits.
    rintro ⟨archive, -, -, hfind⟩ c hc
    obtain ⟨entry, -, -, hlength, -⟩ := hfind c hc
    rw [← hlength]
    exact entry.uncompressedLength.toNat_lt
  · intro hsmall
    have hwritten : Written dz sink.isReg members file := by
      refine ⟨hvalid, hplaced, hfile, hsize, hpos, hcount, ?_, ?_, ?_⟩
      · exact fun m hm => (hname _ (hcontent m hm)).1
      · exact fun m hm => (hname _ (hcontent m hm)).2
      · rw [map_map] at hdistinct
        exact hdistinct
    exact hwritten.roundTrips hz fun m hm => hsmall _ (hcontent m hm)

end

/-! ### A small compression -/

/-- Each byte behind a one, and a zero at the end. -/
def markBytes (data : List UInt8) : List UInt8 := data.flatMap fun b => [1, b]

/-- The stream has some output left, and may have been finished. -/
def markDeflater : Deflater (List UInt8 × Bool) where
  deflateInit := some ([], false)
  deflate t input finish room :=
    if t.2 then
      ⟨if finish ∧ t.1.length ≤ room then .streamEnd else .ok, input, t.1.take room,
        (t.1.drop room, true)⟩
    else
      let out := t.1 ++ markBytes input ++ if finish then [0] else []
      ⟨if finish ∧ out.length ≤ room then .streamEnd else .ok, [], out.take room,
        (out.drop room, finish)⟩
  crcByte crc b := crc * 31 + b.toUInt32

/-- The stream takes a byte at a time; it may have read a one. -/
def markZlib : Zlib Bool where
  inflateInit := some false
  inflate marked input _ :=
    match marked, input with
    | _, [] => ⟨.failed, [], [], marked⟩
    | false, b :: rest =>
      if b = 0 then ⟨.streamEnd, rest, [], false⟩ else ⟨.ok, rest, [], true⟩
    | true, b :: rest => ⟨.ok, rest, [b], false⟩
  crcByte crc b := crc * 31 + b.toUInt32

theorem markDeflater_lawful : markDeflater.Lawful where
  consumes := by
    intro t input finish room
    simp only [markDeflater]
    split
    · exact ⟨[], rfl⟩
    · exact ⟨input, (append_nil input).symm⟩
  fits := by
    intro t input finish room
    simp only [markDeflater]
    split <;> simp only [length_take] <;> omega

variable {data : List UInt8}

/-- What has been put out and what is left is the marked data. -/
theorem markDeflater_out {t : List UInt8 × Bool} {out : List UInt8}
    (h : Deflates markDeflater t data out) :
    out ++ t.1 = markBytes data ++ if t.2 then [0] else [] := by
  induction h with
  | init h =>
    cases h
    rfl
  | @step t data out input consumed finish room _ hinput hok ih =>
    obtain ⟨left, ended⟩ := t
    cases ended with
    | true =>
      obtain rfl : consumed = [] := self_eq_append_left.mp hinput
      change out ++ left.take room ++ left.drop room = markBytes (data ++ []) ++ _
      rw [append_assoc, take_append_drop, append_nil]
      exact ih
    | false =>
      obtain rfl : input = consumed := hinput.trans (append_nil _)
      change out ++ take room _ ++ drop room _ = _ ++ if finish then [0] else []
      rw [append_assoc, take_append_drop, ← append_assoc, ← append_assoc]
      have ih' : out ++ left = markBytes data := by simpa using ih
      rw [ih']
      simp [markBytes]

theorem markDeflater_packed {out : List UInt8} (h : Packed markDeflater out data) :
    out = markBytes data ++ [0] := by
  obtain ⟨⟨left, ended⟩, before, room, hdeflates, hend, rfl⟩ := h
  have hout := markDeflater_out hdeflates
  cases ended with
  | true =>
    have hle : left.length ≤ room := by simpa [markDeflater] using hend
    change before ++ left.take room = _
    rw [take_of_length_le hle]
    exact hout
  | false =>
    have hout : before ++ left = markBytes data := by simpa using hout
    have hle : (left ++ [0]).length ≤ room := by simpa [markDeflater, markBytes] using hend
    change before ++ take room (left ++ markBytes [] ++ [0]) = _
    have hnil : left ++ markBytes [] ++ [0] = left ++ [0] := by simp [markBytes]
    rw [hnil, take_of_length_le hle, ← append_assoc, hout]

/-- What is left of a stream. -/
def MarkLeft (marked : Bool) (packed data : List UInt8) : Prop :=
  match marked with
  | false => packed = markBytes data ++ [0]
  | true => ∃ b rest, data = b :: rest ∧ packed = b :: (markBytes rest ++ [0])

theorem mark_inverts : Inverts markDeflater markZlib where
  lawful := markDeflater_lawful
  inflates := by
    refine ⟨MarkLeft, fun packed data h => ⟨false, rfl, markDeflater_packed h⟩, ?_⟩
    intro marked input later data room hleft hroom hinput
    cases input with
    | nil =>
      -- A stream always has a byte left.
      rw [hinput rfl] at hleft
      cases marked with
      | false | true => exact absurd hleft (by simp [MarkLeft])
    | cons byte input =>
      cases marked with
      | true =>
        obtain ⟨b, rest, rfl, hpacked⟩ := hleft
        obtain ⟨rfl, hrest⟩ := cons.inj hpacked
        refine ⟨hroom, [byte], rest, rfl, rfl, .inr ⟨rfl, hrest, ?_⟩⟩
        change input.length + rest.length < _
        simp only [length_cons]
        omega
      | false =>
        have hpacked : byte :: input ++ later = markBytes data ++ [0] := hleft
        cases data with
        | nil =>
          obtain ⟨rfl, hnil⟩ := cons.inj hpacked
          obtain ⟨rfl, rfl⟩ := append_eq_nil_iff.mp hnil
          exact ⟨Nat.zero_le _, [0], [], rfl, rfl, .inl ⟨rfl, rfl, rfl, rfl⟩⟩
        | cons b rest =>
          obtain ⟨rfl, hrest⟩ := cons.inj hpacked
          refine ⟨Nat.zero_le _, [1], b :: rest, rfl, rfl, .inr ⟨rfl, ?_, ?_⟩⟩
          · exact ⟨b, rest, rfl, hrest⟩
          · change input.length + _ < (input.length + 1) + _
            omega

/-- A regular file. -/
def regularFile : Sink := ⟨true, true, true⟩

/-- A compressed entry, one that is discarded, and a stored one. -/
def threeEntries : List WriterCall :=
  [.startEntry [97] 1 (0, 33), .writeBytes [1, 2] 3, .writeBytes [3] 3, .finishEntry 3,
    .startEntry [98] 0 (0, 33), .writeBytes [4, 4] 0, .finishEntry 0, .discardLastEntry,
    .startEntry [99] 2 (0, 33), .writeBytes [5] 0, .finishEntry 0]

/-- The archive of these calls. -/
def threeEntriesFile : List UInt8 :=
  match writeArchive markDeflater regularFile threeEntries with
  | .ok file => file
  | .error _ => []

theorem zip_roundTrip_threeEntries :
    writeArchive markDeflater regularFile threeEntries = .ok threeEntriesFile ∧
      RoundTrips markDeflater markZlib threeEntriesFile
        [⟨[97], true, [1, 2, 3]⟩, ⟨[99], false, [5]⟩] := by
  have hok : writeArchive markDeflater regularFile threeEntries = .ok threeEntriesFile := by
    decide +kernel
  refine ⟨hok, ?_⟩
  exact (zip_roundTrip_iff mark_inverts hok (by decide +kernel) (by decide) (by decide)
    (by decide) (by decide)).mpr (by decide)

/-- A compressed entry does not see data whose length is a multiple of `2 ^ 32`. -/
theorem writeBytes_of_mod_eq_zero {τ : Type} (dz : Deflater τ) {w : ZipWriter τ}
    (hdeflated : w.currentFileEntry.deflated = true) (hdata : data.length % 2 ^ 32 = 0) (fuel : Nat)
    : w.writeBytes dz data fuel = w.writeBytes dz [] fuel := by
  have htake : data.take (data.length % 2 ^ 32) = [].take 0 := by
    rw [hdata]
    rfl
  have hlength : UInt32.ofNat data.length = UInt32.ofNat ([] : List UInt8).length := by
    apply UInt32.toNat_inj.mp
    rw [UInt32.toNat_ofNat', hdata]
    rfl
  unfold writeBytes compressBytes FileEntry.addData
  rw [hdeflated, htake, hlength]
  rfl

/-- One compressed entry with some data. -/
def oneEntry (data : List UInt8) : List WriterCall :=
  [.startEntry [97] 1 (0, 33), .writeBytes data 2, .finishEntry 2]

/-- The archive of an empty compressed entry. -/
def oneEntryFile : List UInt8 :=
  match writeArchive markDeflater regularFile (oneEntry []) with
  | .ok file => file
  | .error _ => []

theorem writeArchive_oneEntry (hdata : data.length % 2 ^ 32 = 0) :
    writeArchive markDeflater regularFile (oneEntry data)
      = writeArchive markDeflater regularFile (oneEntry []) := by
  -- The writer in the entry.
  cases hstart : (new regularFile).startEntryWithTime markDeflater [97] 1 (0, 33) with
  | error e =>
    simp only [writeArchive, oneEntry, calls, call, hstart]
    rfl
  | ok w =>
    obtain ⟨-, hstarted⟩ := (between_new markDeflater regularFile).start hstart
    have hdeflated : w.currentFileEntry.deflated = true :=
      deflated_of_deflated hstarted.method
    have hwrite := writeBytes_of_mod_eq_zero markDeflater hdeflated hdata 2
    simp [writeArchive, oneEntry, calls, call, hstart, Except.bind, bind, hwrite]

/-- The entry of the archive of an empty compressed entry has no data. -/
theorem oneEntryFile_extract :
    ∃ archive entry, openArchive oneEntryFile = .ok archive ∧
      findEntry oneEntryFile archive [97] = .ok entry ∧
      extractToMemory oneEntryFile markZlib 2 entry entry.uncompressedLength.toNat
        = .ok [] := by
  refine ⟨⟨⟨48, 47, 1⟩, [none, some ⟨94, 1⟩]⟩, ⟨8, 2162688, 511, true, 0, 1, 0, 31⟩, ?_, ?_, ?_⟩
  · decide +kernel
  · decide +kernel
  · decide +kernel

theorem oneEntry_not_roundTrips (hdata : data.length = 2 ^ 32) :
    ¬ RoundTrips markDeflater markZlib oneEntryFile [⟨[97], true, data⟩] := by
  rintro ⟨archive, -, -, hfind⟩
  obtain ⟨entry, -, -, hlength, -⟩ := hfind _ (mem_singleton_self _)
  have hlt := entry.uncompressedLength.toNat_lt
  have hlength : entry.uncompressedLength.toNat = data.length := hlength
  omega

theorem survivors_oneEntry (data : List UInt8) :
    survivors (oneEntry data) = [⟨[97], true, data⟩] := rfl

/-- 4 GiB of zeros that are written at once: all calls succeed and the archive is small, but
the entry is empty. -/
theorem fourGiB_lost :
    writeArchive markDeflater regularFile (oneEntry (List.replicate (2 ^ 32) 0))
        = .ok oneEntryFile ∧
      oneEntryFile.length < 2 ^ 32 ∧
      survivors (oneEntry (List.replicate (2 ^ 32) 0))
        = [⟨[97], true, List.replicate (2 ^ 32) 0⟩] ∧
      (∃ archive entry, openArchive oneEntryFile = .ok archive ∧
        findEntry oneEntryFile archive [97] = .ok entry ∧
        extractToMemory oneEntryFile markZlib 2 entry entry.uncompressedLength.toNat
          = .ok []) ∧
      ¬ RoundTrips markDeflater markZlib oneEntryFile
        [⟨[97], true, List.replicate (2 ^ 32) 0⟩] := by
  have hlength : (replicate (2 ^ 32) (0 : UInt8)).length = 2 ^ 32 :=
    length_replicate
  generalize replicate (2 ^ 32) (0 : UInt8) = data at hlength ⊢
  have hfile : writeArchive markDeflater regularFile (oneEntry []) = .ok oneEntryFile := by
    decide +kernel
  have hmod : data.length % 2 ^ 32 = 0 := by rw [hlength, Nat.mod_self]
  exact ⟨(writeArchive_oneEntry hmod).trans hfile, by decide +kernel, survivors_oneEntry data,
    oneEntryFile_extract, oneEntry_not_roundTrips hlength⟩

end AndroidCore.Libziparchive
