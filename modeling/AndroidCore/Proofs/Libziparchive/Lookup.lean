import AndroidCore.Proofs.Libziparchive.HashTable
import AndroidCore.Proofs.Libziparchive.Writer

/-!
# `AndroidCore.Proofs.Libziparchive.Lookup`: finding the entries of a written archive

`Written` is an archive as the writer leaves it. The reader finds its end record and its
central directory (`Written.mapCentralDirectory_eq`), fills the hash table with the names of
its records (`Written.openArchive_eq`), and finds for each name the entry that the writer
described (`Written.findEntry_eq`).
-/

namespace AndroidCore.Libziparchive

open Lib List Outcome CentralDirectoryRecord

/-- An archive as the writer leaves it: less than 4 GiB, with at most 65535 entries with
different names. -/
structure Written {τ : Type} (dz : Deflater τ) (seekable : Bool) (members : List Member)
    (file : List UInt8) : Prop where
  valid : ∀ m ∈ members, m.Valid dz
  placed : Placed seekable members
  file_eq : file = layout seekable members ++ directoryBytes seekable members ++
    (endRecord members.length (layout seekable members).length
      (directoryBytes seekable members).length).encode
  size : file.length < 2 ^ 32
  count_pos : 1 ≤ members.length
  count_le : members.length ≤ 65535
  name_ne : ∀ m ∈ members, m.entry.path ≠ []
  name_le : ∀ m ∈ members, m.entry.path.length ≤ 65535
  distinct : (members.map fun m => m.entry.path).Nodup

/-- The central directory of an archive as the writer leaves it. -/
def directoryOf (seekable : Bool) (members : List Member) : Directory where
  directoryOffset := (layout seekable members).length
  cdLength := (directoryBytes seekable members).length
  numEntries := members.length

variable {n : Nat}

theorem toNat_ofNat32 (h : n < 2 ^ 32) : (UInt32.ofNat n).toNat = n := by
  exact Nat.mod_eq_of_lt h

theorem toNat_ofNat16 (h : n ≤ 65535) : (UInt16.ofNat n).toNat = n := by
  exact Nat.mod_eq_of_lt (by omega)

variable {tail : List UInt8} {off : Nat}

/-- Reading bytes whose place is known. -/
theorem readAtOffset_eq {file bytes : List UInt8} {len : Nat} (h : file.drop off = bytes ++ tail)
    (hoff : off ≤ file.length) (hlen : bytes.length = len) :
    readAtOffset file len off = .ok bytes := by
  have hle : off + len ≤ file.length := by
    have hlength := congrArg length h
    rw [length_drop, length_append] at hlength
    omega
  unfold readAtOffset
  rw [if_neg (by omega), view_eq_ok hle, h, take_left' hlen]

theorem view_eq {file bytes : List UInt8} {len : Nat} (h : file.drop off = bytes ++ tail)
    (hoff : off ≤ file.length) (hlen : bytes.length = len) :
    (view file off len : Reads (List UInt8)) = .ok bytes := by
  have hread := readAtOffset_eq h hoff hlen
  unfold readAtOffset at hread
  rwa [if_neg (by omega)] at hread

section

variable {τ : Type} {dz : Deflater τ} {seekable : Bool} {members : List Member} {file : List UInt8}

theorem Written.length_eq (h : Written dz seekable members file) :
    file.length = (layout seekable members).length +
      (directoryBytes seekable members).length + EocdRecord.size := by
  conv_lhs => rw [h.file_eq]
  rw [length_append, length_append, EocdRecord.length_encode]

/-! ### The end record -/

theorem scanForEocd_eq {scanBuffer : List UInt8} (h : u32 scanBuffer n = EocdRecord.kSignature) :
    scanForEocd scanBuffer n = some n := by
  cases n with
  | zero | succ n => rw [scanForEocd, if_pos h]

/-- The end record is found in the first place that is tried. -/
theorem Written.mapCentralDirectory_eq (h : Written dz seekable members file) :
    mapCentralDirectory file = .ok (directoryOf seekable members) := by
  have hlen := h.length_eq
  have hsize := h.size
  have heocd : EocdRecord.size = 22 := rfl
  have hmax : kMaxEOCDSearch = 65557 := rfl
  generalize her : endRecord members.length (layout seekable members).length
    (directoryBytes seekable members).length = er
  have hfile : file = (layout seekable members ++ directoryBytes seekable members) ++
      er.encode := by
    rw [← her]
    exact h.file_eq
  generalize hbody : layout seekable members ++ directoryBytes seekable members = body at hfile
  have hbodyLen : body.length = (layout seekable members).length +
      (directoryBytes seekable members).length := by
    rw [← hbody, length_append]
  unfold mapCentralDirectory
  rw [if_neg (by omega), if_neg (by omega)]
  unfold mapCentralDirectory0
  simp only
  generalize hamount : min kMaxEOCDSearch file.length = readAmount
  have hdropBody : ∀ n ≤ body.length, file.drop n = body.drop n ++ er.encode := by
    intro n hn
    rw [hfile, drop_append_of_le_length hn]
  have hbuf : file.drop (file.length - readAmount)
      = (body.drop (file.length - readAmount) ++ er.encode) ++ [] := by
    rw [append_nil, hdropBody _ (by omega)]
  have hdropLen : (body.drop (file.length - readAmount)).length
      = readAmount - EocdRecord.size := by
    rw [length_drop]
    omega
  have hread := readAtOffset_eq hbuf (by omega)
    (show _ = readAmount by rw [length_append, EocdRecord.length_encode]; omega)
  rw [hread, ok_bind]
  have hdrop : (body.drop (file.length - readAmount) ++ er.encode).drop
      (readAmount - EocdRecord.size) = er.encode ++ [] := by
    rw [append_nil, drop_left' hdropLen]
  have hsignature : u32 (body.drop (file.length - readAmount) ++ er.encode)
      (readAmount - EocdRecord.size) = EocdRecord.kSignature := by
    rw [u32_append _ hdropLen.le, hdropLen, Nat.sub_self, ← append_nil er.encode,
      EocdRecord.u32_encode, ← her]
    rfl
  rw [scanForEocd_eq hsignature]
  simp only
  rw [hdrop, EocdRecord.decode_encode]
  have hcomment : er.commentLength.toNat = 0 := by
    rw [← her]
    rfl
  have hstart : er.cdStartOffset.toNat = (layout seekable members).length := by
    rw [← her]
    exact toNat_ofNat32 (by omega)
  have hcd : er.cdSize.toNat = (directoryBytes seekable members).length := by
    rw [← her]
    exact toNat_ofNat32 (by omega)
  have hcount : er.numRecords.toNat = members.length := by
    rw [← her]
    exact toNat_ofNat16 h.count_le
  have hne : er.numRecords ≠ 0 := by
    intro hzero
    have hpos := h.count_pos
    rw [hzero] at hcount
    have : (0 : UInt16).toNat = 0 := rfl
    omega
  rw [hstart, hcd, hcount, if_neg (by omega), if_neg (by omega), if_neg hne,
    if_neg (by omega)]
  rfl

/-! ### The central directory -/

/-- The names of the records from `ptr` on. -/
def slotsFrom (seekable : Bool) : Nat → List Member → List (ZipString × Member)
  | _, [] => []
  | ptr, m :: rest =>
    (⟨ptr + CentralDirectoryRecord.size, m.entry.path.length⟩, m) ::
      slotsFrom seekable (ptr + (m.entry.recordBytes seekable).length) rest

/-- A record of the central directory in the archive. -/
structure Recorded (file : List UInt8) (seekable : Bool) (start stop : Nat)
    (p : ZipString × Member) : Prop where
  bytes : ∃ tail, file.drop (p.1.name - CentralDirectoryRecord.size)
    = p.2.entry.recordBytes seekable ++ tail
  start_le : start + CentralDirectoryRecord.size ≤ p.1.name
  le_stop : p.1.name + p.1.nameLength ≤ stop
  length : p.1.nameLength = p.2.entry.path.length

theorem length_recordBytes (e : FileEntry) (seekable : Bool) :
    (e.recordBytes seekable).length = CentralDirectoryRecord.size + e.path.length := by
  simp [FileEntry.recordBytes]

theorem drop_of_drop_append {a b : List UInt8} (h : file.drop off = a ++ b)
    (hn : n = off + a.length) : file.drop n = b := by
  rw [hn, ← drop_drop, h, drop_left' rfl]

theorem recorded_of_mem {ptr stop : Nat} {ms : List Member}
    (hdrop : file.drop ptr = directoryBytes seekable ms ++ tail)
    (hstop : ptr + (directoryBytes seekable ms).length = stop) :
    ∀ p ∈ slotsFrom seekable ptr ms, Recorded file seekable ptr stop p := by
  induction ms generalizing ptr with
  | nil => exact fun p hp => (nomatch hp)
  | cons m rest ih =>
    have hbytes : directoryBytes seekable (m :: rest)
        = m.entry.recordBytes seekable ++ directoryBytes seekable rest := rfl
    rw [hbytes, append_assoc] at hdrop
    rw [hbytes, length_append] at hstop
    have hlen := length_recordBytes m.entry seekable
    intro p hp
    rcases mem_cons.mp hp with rfl | hrest
    · refine ⟨⟨directoryBytes seekable rest ++ tail, ?_⟩, le_rfl, ?_, rfl⟩
      · exact hdrop
      · simp only
        omega
    · have hrec := ih (drop_of_drop_append hdrop rfl) (by omega) p hrest
      have hstart := hrec.start_le
      exact ⟨hrec.bytes, by omega, hrec.le_stop, hrec.length⟩

variable {p : ZipString × Member}

/-- The name of a record. -/
theorem Recorded.nameOf_eq {start stop : Nat} (h : Recorded file seekable start stop p) :
    nameOf file p.1 = p.2.entry.path := by
  obtain ⟨tail, hbytes⟩ := h.bytes
  have hstart := h.start_le
  rw [FileEntry.recordBytes, append_assoc] at hbytes
  have hname : file.drop p.1.name = p.2.entry.path ++ tail := by
    refine drop_of_drop_append hbytes ?_
    rw [length_encode]
    omega
  rw [nameOf, hname, h.length, take_left' rfl]

theorem map_snd_slotsFrom (seekable : Bool) (ptr : Nat) (ms : List Member) :
    (slotsFrom seekable ptr ms).map Prod.snd = ms := by
  induction ms generalizing ptr with
  | nil => rfl
  | cons m rest ih => rw [slotsFrom, map_cons, ih]

variable {m : Member}

/-- An entry lies in front of the central directory. -/
theorem Written.drop_header (h : Written dz seekable members file) (hm : m ∈ members) :
    ∃ tail, file.drop m.entry.localFileHeaderOffset = m.bytes seekable ++ tail ∧
      m.entry.localFileHeaderOffset + (m.bytes seekable).length
        ≤ (layout seekable members).length := by
  obtain ⟨a, b, rfl⟩ := append_of_mem hm
  have hstart := h.placed a m b rfl
  have hlayout : layout seekable (a ++ m :: b)
      = layout seekable a ++ (m.bytes seekable ++ layout seekable b) := by
    simp [layout]
  refine ⟨layout seekable b ++ (directoryBytes seekable (a ++ m :: b) ++
    (endRecord (a ++ m :: b).length (layout seekable (a ++ m :: b)).length
      (directoryBytes seekable (a ++ m :: b)).length).encode), ?_, ?_⟩
  · conv_lhs => rw [h.file_eq, hstart, hlayout]
    simp only [append_assoc]
    rw [drop_left' rfl, ← hlayout]
  · rw [hlayout, length_append, length_append]
    omega

theorem length_bytes_ge (seekable : Bool) (m : Member) :
    LocalFileHeader.size + m.entry.path.length + m.entry.paddingLength.toNat +
      m.payload.length ≤ (m.bytes seekable).length := by
  rw [Member.bytes, length_append, length_append, length_startBytes]
  omega

variable {table : HashTable} {k : Nat}

/-- A round of `ParseZipArchive` for each record. -/
theorem parseRecords_eq {d : Directory} (hfits : d.Fits file) {ms : List Member}
    {done : List (ZipString × Member)} {ptr : Nat}
    (hdrop : file.drop ptr = directoryBytes seekable ms ++ tail)
    (hstop : ptr + (directoryBytes seekable ms).length = d.directoryOffset + d.cdLength)
    (hptr : d.directoryOffset ≤ ptr) (htable : TableOf file k table (done.map Prod.fst))
    (hdone : ∀ p ∈ done, nameOf file p.1 = p.2.entry.path)
    (hdistinct : ((done.map Prod.snd ++ ms).map fun m => m.entry.path).Nodup)
    (hroom : done.length + ms.length < 2 ^ k)
    (hname : ∀ m ∈ ms, m.entry.path.length ≤ 65535 ∧ isValidEntryName m.entry.path = true)
    (hheader : ∀ m ∈ ms, m.entry.localFileHeaderOffset < d.directoryOffset ∧
      m.entry.localFileHeaderOffset < 2 ^ 32) :
    ∃ table', parseRecords file d ms.length ptr table = .ok table' ∧
      TableOf file k table' ((done ++ slotsFrom seekable ptr ms).map Prod.fst) := by
  induction ms generalizing done ptr table with
  | nil =>
    refine ⟨table, rfl, ?_⟩
    rw [slotsFrom, append_nil]
    exact htable
  | cons m rest ih =>
    have hbytes : directoryBytes seekable (m :: rest)
        = m.entry.recordBytes seekable ++ directoryBytes seekable rest := rfl
    have hlen := length_recordBytes m.entry seekable
    have hrecorded := recorded_of_mem hdrop hstop _ mem_cons_self
    rw [hbytes, append_assoc] at hdrop
    rw [hbytes, length_append] at hstop
    unfold Directory.Fits at hfits
    have hrecord : file.drop ptr = (m.entry.record seekable).encode ++
        (m.entry.path ++ (directoryBytes seekable rest ++ tail)) := by
      rw [hdrop, FileEntry.recordBytes]
      simp
    have hpath : file.drop (ptr + CentralDirectoryRecord.size)
        = m.entry.path ++ (directoryBytes seekable rest ++ tail) := by
      refine drop_of_drop_append hrecord ?_
      rw [length_encode]
    obtain ⟨hlength, hvalid⟩ := hname m mem_cons_self
    obtain ⟨hfront, hsmall⟩ := hheader m mem_cons_self
    have hfileName : (m.entry.record seekable).fileNameLength.toNat = m.entry.path.length :=
      toNat_ofNat16 hlength
    have hoffset : (m.entry.record seekable).localFileHeaderOffset.toNat
        = m.entry.localFileHeaderOffset := toNat_ofNat32 hsmall
    have hextra : (m.entry.record seekable).extraFieldLength.toNat = 0 := rfl
    have hcomment : (m.entry.record seekable).commentLength.toNat = 0 := rfl
    rw [length_cons, parseRecords]
    rw [if_neg (by omega), view_eq hrecord (by omega) (by simp), ok_bind,
      ← append_nil (m.entry.record seekable).encode,
      decode_encode, if_neg (fun hne => hne rfl), if_neg (by omega), hfileName,
      if_neg (by omega), view_eq hpath (by omega) rfl, ok_bind, if_neg (by rw [hvalid]; decide)]
    -- The name is new.
    have hnew : ∀ s' ∈ done.map Prod.fst, nameOf file s' ≠ nameOf file
        ⟨ptr + CentralDirectoryRecord.size, m.entry.path.length⟩ := by
      intro s' hs' heq
      obtain ⟨p, hp, rfl⟩ := mem_map.mp hs'
      rw [hdone p hp, hrecorded.nameOf_eq] at heq
      rw [map_append, nodup_append] at hdistinct
      refine hdistinct.2.2 p.2.entry.path ?_ m.entry.path ?_ heq
      · exact mem_map.mpr ⟨p.2, mem_map.mpr ⟨p, hp, rfl⟩, rfl⟩
      · exact mem_map.mpr ⟨m, mem_cons_self, rfl⟩
    rw [length_cons] at hroom
    obtain ⟨table', hadd, htable'⟩ := htable.addToHash_eq
      (by simp only; omega) (by rw [length_map]; omega) hnew
    rw [hrecorded.nameOf_eq] at hadd
    rw [hadd, ok_bind, hextra, if_neg (by omega)]
    have hnext : ptr + CentralDirectoryRecord.size + m.entry.path.length + 0 + 0
        = ptr + (m.entry.recordBytes seekable).length := by
      omega
    rw [hnext]
    have htable'' : TableOf file k table' ((done ++
        [((⟨ptr + CentralDirectoryRecord.size, m.entry.path.length⟩ : ZipString), m)]).map
          Prod.fst) := by
      rw [map_append]
      exact htable'
    have hmore := ih (drop_of_drop_append hdrop rfl) (by omega) (by omega) htable''
      (forall_mem_append.mpr ⟨hdone, forall_mem_singleton.mpr hrecorded.nameOf_eq⟩)
      (by simpa using hdistinct)
      (by rw [length_append]; simp only [length_cons, length_nil]; omega)
      (fun m' hm' => hname m' (mem_cons_of_mem _ hm'))
      (fun m' hm' => hheader m' (mem_cons_of_mem _ hm'))
    rw [append_assoc] at hmore
    exact hmore

variable (h : Written dz seekable members file)
include h

/-- The bytes of the central directory. -/
theorem Written.drop_directory :
    file.drop (layout seekable members).length = directoryBytes seekable members ++
      (endRecord members.length (layout seekable members).length
        (directoryBytes seekable members).length).encode := by
  conv_lhs => rw [h.file_eq]
  rw [append_assoc, drop_left' rfl]

/-- The names of an archive. -/
def slotsOf (seekable : Bool) (members : List Member) : List (ZipString × Member) :=
  slotsFrom seekable (layout seekable members).length members

omit h in
theorem map_snd_slotsOf (seekable : Bool) (members : List Member) :
    (slotsOf seekable members).map Prod.snd = members :=
  map_snd_slotsFrom seekable _ members

omit h in
theorem mem_of_mem_slotsOf (hp : p ∈ slotsOf seekable members) : p.2 ∈ members := by
  rw [← map_snd_slotsOf seekable members]
  exact mem_map.mpr ⟨p, hp, rfl⟩

theorem Written.recorded (hp : p ∈ slotsOf seekable members) :
    Recorded file seekable (layout seekable members).length
      ((layout seekable members).length + (directoryBytes seekable members).length) p :=
  recorded_of_mem h.drop_directory rfl p hp

/-- The archive is opened. -/
theorem Written.openArchive_eq :
    ∃ table k, openArchive file = .ok ⟨directoryOf seekable members, table⟩ ∧
      TableOf file k table ((slotsOf seekable members).map Prod.fst) := by
  have hcount := h.count_le
  have hlen := h.length_eq
  have hsize := h.size
  obtain ⟨k, hk, hle⟩ := roundUpPower2_eq (n := 1 + members.length * 4 / 3)
    (by omega) (by omega)
  have hempty : TableOf file k (replicate (2 ^ k) none)
      (([] : List (ZipString × Member)).map Prod.fst) := tableOf_empty file k
  have hfits : (directoryOf seekable members).Fits file := by
    change (layout seekable members).length + (directoryBytes seekable members).length +
      EocdRecord.size ≤ file.length
    omega
  obtain ⟨table, hparse, htable⟩ := parseRecords_eq hfits h.drop_directory rfl le_rfl hempty
    (fun p hp => (nomatch hp)) (by simpa using h.distinct)
    (by simp only [length_nil]; omega)
    (fun m hm => ⟨h.name_le m hm, (h.valid m hm).describes.name⟩)
    (fun m hm => by
      obtain ⟨tail, -, hend⟩ := h.drop_header hm
      have hge := length_bytes_ge seekable m
      have hheader : LocalFileHeader.size = 30 := rfl
      change _ < (layout seekable members).length ∧ _
      omega)
  refine ⟨table, k, ?_, htable⟩
  unfold openArchive
  rw [h.mapCentralDirectory_eq]
  change (parseRecords file (directoryOf seekable members) members.length
    (layout seekable members).length
    (replicate (roundUpPower2 (UInt32.ofNat (1 + members.length * 4 / 3))).toNat none)
    >>= _) = _
  rw [hk]
  have hparse' : parseRecords file (directoryOf seekable members) members.length
      (layout seekable members).length (replicate (2 ^ k) none) = .ok table := hparse
  rw [hparse']
  rfl

/-! ### The entries -/

/-- The entry that the reader finds for a member. -/
def Member.zipEntry (seekable : Bool) (m : Member) : ZipEntry where
  method := m.entry.compressionMethod
  modTime := m.entry.lastModDate.toUInt32 <<< 16 ||| m.entry.lastModTime.toUInt32
  unixMode := 0o777
  hasDataDescriptor := m.entry.hasDescriptor seekable
  crc32 := m.entry.crc32
  compressedLength := m.entry.compressedSize
  uncompressedLength := m.entry.uncompressedSize
  offset := m.entry.localFileHeaderOffset + LocalFileHeader.size +
    m.entry.path.length + m.entry.paddingLength.toNat

/-- The sizes of an entry fit their fields. -/
theorem Written.payload_lt (hm : m ∈ members) :
    m.entry.localFileHeaderOffset + LocalFileHeader.size + m.entry.path.length +
        m.entry.paddingLength.toNat + m.payload.length ≤ (layout seekable members).length ∧
      m.entry.compressedSize.toNat = m.payload.length ∧
      (m.entry.compressionMethod = kCompressStored →
        m.entry.uncompressedSize.toNat = m.payload.length) := by
  obtain ⟨tail, -, hend⟩ := h.drop_header hm
  have hge := length_bytes_ge seekable m
  have hlen := h.length_eq
  have hsize := h.size
  have hvalid := h.valid m hm
  refine ⟨by omega, ?_, fun hstored => ?_⟩
  · rw [hvalid.describes.compressed, toNat_ofNat32 (by omega)]
  · rcases hvalid.content with ⟨-, hpayload⟩ | ⟨hdeflated, -⟩
    · rw [hvalid.describes.uncompressed, ← hpayload, toNat_ofNat32 (by omega)]
    · rw [hdeflated] at hstored
      cases hstored

omit h in
/-- The flag of the data descriptor. -/
theorem gpbFlags_ne_zero (e : FileEntry) (dd : Bool) :
    decide ((copyFromFileEntry e dd).gpbFlags &&& kGPBDDFlagMask ≠ 0) = dd := by
  have hset : kGPBDDFlagMask &&& kGPBDDFlagMask ≠ 0 := by decide
  have hclear : ¬ ((0 : UInt16) &&& kGPBDDFlagMask ≠ 0) := by decide
  cases dd with
  | true => exact decide_eq_true hset
  | false => exact decide_eq_false hclear

/-- The local header agrees with the record. -/
theorem Written.checkLocalHeader_eq {s : ZipString} (hp : (s, m) ∈ slotsOf seekable members) :
    checkLocalHeader file ⟨directoryOf seekable members, table⟩ s (m.entry.record seekable)
        (copyFromFileEntry m.entry (m.entry.hasDescriptor seekable))
      = .ok (m.zipEntry seekable) := by
  have hm : m ∈ members := mem_of_mem_slotsOf hp
  have hrecorded := h.recorded hp
  have hlength : s.nameLength = m.entry.path.length := hrecorded.length
  have hlen := h.length_eq
  have hsize := h.size
  obtain ⟨hfront, hcompressed, hstored⟩ := h.payload_lt hm
  obtain ⟨tail, hdrop, hend⟩ := h.drop_header hm
  have hcd : (directoryOf seekable members).directoryOffset
      = (layout seekable members).length := rfl
  have hoffset : (m.entry.record seekable).localFileHeaderOffset.toNat
      = m.entry.localFileHeaderOffset := toNat_ofNat32 (by omega)
  have hcompressed' : (m.entry.record seekable).compressedSize.toNat = m.payload.length :=
    hcompressed
  -- The name behind the header, and the one behind the record.
  have hname : file.drop (m.entry.localFileHeaderOffset + LocalFileHeader.size)
      = m.entry.path ++ (replicate m.entry.paddingLength.toNat 0 ++
          (m.payload ++ ((if m.entry.hasDescriptor seekable then m.entry.descriptorBytes
            else []) ++ tail))) := by
    rw [Member.bytes, FileEntry.startBytes] at hdrop
    simp only [append_assoc] at hdrop
    refine drop_of_drop_append hdrop ?_
    rw [LocalFileHeader.length_encode]
  have hread := readAtOffset_eq hname (by omega) hlength.symm
  have hview : (view file s.name s.nameLength : Reads (List UInt8)) = .ok m.entry.path := by
    have hstop : s.name + s.nameLength ≤ _ := hrecorded.le_stop
    rw [view_eq_ok (by omega)]
    exact congrArg ok hrecorded.nameOf_eq
  have hflags := gpbFlags_ne_zero m.entry (m.entry.hasDescriptor seekable)
  have hsizes : ∀ dd, dd = false →
      m.entry.compressedSize = (copyFromFileEntry m.entry dd).compressedSize ∧
        m.entry.uncompressedSize = (copyFromFileEntry m.entry dd).uncompressedSize ∧
        m.entry.crc32 = (copyFromFileEntry m.entry dd).crc32 := by
    rintro dd rfl
    exact ⟨rfl, rfl, rfl⟩
  have hsizes := hsizes (m.entry.hasDescriptor seekable)
  unfold Member.zipEntry
  generalize m.entry.hasDescriptor seekable = dd at hflags hsizes
  have hpathLen : (copyFromFileEntry m.entry dd).fileNameLength.toNat = m.entry.path.length :=
    toNat_ofNat16 (h.name_le _ hm)
  have hextra : (copyFromFileEntry m.entry dd).extraFieldLength.toNat
      = m.entry.paddingLength.toNat := by
    exact Nat.mod_eq_of_lt (h.valid _ hm).describes.padding
  unfold checkLocalHeader
  simp only [hflags]
  rw [if_neg ?_, hpathLen, if_neg (by rw [hlength]; exact fun hne => hne rfl), hoffset, hextra,
    if_neg (by omega), hread, ok_bind, hview, ok_bind, if_neg (fun hne => hne rfl),
    if_neg (by omega), if_neg (by omega), if_neg ?_, if_neg ?_]
  · rfl
  · -- The writer does not say which system it runs on.
    change ¬ (0 : UInt16) >>> 8 = 3
    decide
  · rintro ⟨hmethod, hgt⟩
    have huncompressed : (m.entry.record seekable).uncompressedSize.toNat = m.payload.length :=
      hstored hmethod
    omega
  · rintro ⟨hdd, hne⟩
    obtain ⟨h₁, h₂, h₃⟩ := hsizes hdd
    rcases hne with hne | hne | hne
    · exact hne h₁
    · exact hne h₂
    · exact hne h₃

theorem Written.findEntryAt_eq (hp : p ∈ slotsOf seekable members) :
    findEntryAt file ⟨directoryOf seekable members, table⟩ p.1
      = .ok (p.2.zipEntry seekable) := by
  have hm := mem_of_mem_slotsOf hp
  have hrecorded := h.recorded hp
  have hstart := hrecorded.start_le
  have hstop := hrecorded.le_stop
  have hlen := h.length_eq
  have hsize := h.size
  obtain ⟨tail, hbytes⟩ := hrecorded.bytes
  rw [FileEntry.recordBytes, append_assoc] at hbytes
  obtain ⟨hfront, -, -⟩ := h.payload_lt hm
  obtain ⟨tail', hdrop, -⟩ := h.drop_header hm
  rw [Member.bytes, FileEntry.startBytes] at hdrop
  simp only [append_assoc] at hdrop
  have hpath : 0 < p.2.entry.path.length := length_pos_iff.mpr (h.name_ne _ hm)
  have hptr : ((p.1.name : Int) - CentralDirectoryRecord.size).toNat
      = p.1.name - CentralDirectoryRecord.size := by
    omega
  unfold findEntryAt
  simp only
  have hinside : ¬ ((p.1.name : Int) - CentralDirectoryRecord.size
        < ((directoryOf seekable members).directoryOffset) ∨
      (p.1.name : Int) - CentralDirectoryRecord.size
        > ((directoryOf seekable members).directoryOffset) +
          ((directoryOf seekable members).cdLength)) := by
    simp only [directoryOf]
    omega
  have hoffset : (p.2.entry.record seekable).localFileHeaderOffset.toNat
      = p.2.entry.localFileHeaderOffset := toNat_ofNat32 (by omega)
  have hcd : (directoryOf seekable members).directoryOffset
      = (layout seekable members).length := rfl
  rw [if_neg hinside, hptr, view_eq hbytes (by omega) (by simp), ok_bind,
    ← append_nil (p.2.entry.record seekable).encode,
    decode_encode, hoffset, if_neg (by omega), readAtOffset_eq hdrop (by omega) (by simp), ok_bind,
    ← append_nil (LocalFileHeader.encode _), LocalFileHeader.decode_encode]
  exact h.checkLocalHeader_eq hp

variable (htable : TableOf file k table ((slotsOf seekable members).map Prod.fst))
include htable

/-- Every name is found. -/
theorem Written.findEntry_eq (hm : m ∈ members) :
    findEntry file ⟨directoryOf seekable members, table⟩ m.entry.path
      = .ok (m.zipEntry seekable) := by
  rw [← map_snd_slotsOf seekable members] at hm
  obtain ⟨p, hp, rfl⟩ := mem_map.mp hm
  have hmem := mem_of_mem_slotsOf hp
  have hpath : p.2.entry.path.length ≠ 0 := by
    have := length_pos_iff.mpr (h.name_ne _ hmem)
    omega
  obtain ⟨i, hslot, hindex⟩ :=
    htable.entryToIndex_eq (mem_map.mpr ⟨p, hp, rfl⟩)
  rw [(h.recorded hp).nameOf_eq] at hindex
  have hget : table.getD i none = some p.1 := hslot
  unfold findEntry
  rw [if_neg hpath, hindex, ok_bind, hget]
  exact h.findEntryAt_eq hp

/-! ### Iterating -/

/-- The loop of a caller over the entries of an archive. -/
def iterate (file : List UInt8) (archive : ZipArchive) :
    Nat → IterationHandle → Reads (List (ZipEntry × ZipString))
  | 0, _ => .unfinished
  | fuel + 1, h => do
    let (h, found) ← next file archive h
    match found with
    | .ok entry => do
      let rest ← iterate file archive fuel h
      pure (entry :: rest)
    | .error .iterationEnd => pure []
    | .error e => .error e

omit h htable in
/-- Without filters every name is accepted: the next one is the next item of the table. -/
theorem nextSlot_eq (file : List UInt8) (table : HashTable) (position : Nat) {i : Nat}
    (hn : n = table.length - i) :
    (items (table.drop i) = [] ∧
        nextSlot file table ⟨position, [], []⟩ n i = .ok none) ∨
      ∃ s j, items (table.drop i) = s :: items (table.drop j) ∧
        nextSlot file table ⟨position, [], []⟩ n i = .ok (some (j, s)) := by
  induction n generalizing i with
  | zero =>
    refine .inl ⟨?_, rfl⟩
    rw [drop_eq_nil_of_le (by omega)]
    rfl
  | succ n ih =>
    have hlt : i < table.length := by omega
    have hcons : table.drop i = table[i] :: table.drop (i + 1) :=
      (getElem_cons_drop hlt).symm
    have hget : table.getD i none = table[i] := by
      rw [getD_eq_getElem?_getD, getElem?_eq_getElem hlt]
      rfl
    rw [nextSlot, hget, hcons]
    cases table[i] with
    | none => exact ih (by omega)
    | some s => exact .inr ⟨s, i + 1, rfl, rfl⟩

theorem Written.iterate_eq (entryOf : ZipString → ZipEntry)
    (hentry : ∀ p ∈ slotsOf seekable members, entryOf p.1 = p.2.zipEntry seekable)
    (rest : List ZipString) (position : Nat) (hrest : items (table.drop position) = rest) :
    iterate file ⟨directoryOf seekable members, table⟩ (rest.length + 1) ⟨position, [], []⟩
      = .ok (rest.map fun s => (entryOf s, s)) := by
  induction rest generalizing position with
  | nil =>
    rcases nextSlot_eq file table position rfl with
      ⟨-, hnext⟩ | ⟨s, j, hitems, -⟩
    · rw [iterate, next]
      rw [hnext]
      rfl
    · rw [hrest] at hitems
      cases hitems
  | cons s rest ih =>
    rcases nextSlot_eq file table position rfl with
      ⟨hitems, -⟩ | ⟨s', j, hitems, hnext⟩
    · rw [hrest] at hitems
      cases hitems
    · rw [hrest] at hitems
      obtain ⟨rfl, hj⟩ := cons.inj hitems
      have hmem : s ∈ items table := by
        have hdrop : s ∈ items (table.drop position) := by
          rw [hrest]
          exact mem_cons_self
        exact ((drop_sublist position table).filterMap id).subset hdrop
      obtain ⟨p, hp, rfl⟩ := mem_map.mp (htable.items.mem_iff.mp hmem)
      rw [length_cons, iterate, next]
      rw [hnext, ok_bind]
      simp only
      rw [h.findEntryAt_eq hp]
      simp only [pure_eq_ok, ok_bind]
      rw [ih _ hj.symm, map_cons, hentry p hp]
      rfl

end

end AndroidCore.Libziparchive
