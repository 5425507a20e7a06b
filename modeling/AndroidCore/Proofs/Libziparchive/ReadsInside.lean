import AndroidCore.Libziparchive.ZipArchive

/-!
# `AndroidCore.Proofs.Libziparchive.ReadsInside`: the reader stays in the archive

`MappedZipFile::ReadAtOffset` checks where a read starts and not where it ends, so that
each read is safe because of what has been checked before it. The chain of these checks
is three invariants:

* `Directory.Fits`: the central directory is followed by the end record, which has 22 bytes.
* `ZipString.Within`: a name of the hash table has its record in front of it, and lies in
  the central directory.
* `ZipEntry.Fits`: the data of an entry ends at the central directory at the latest. The
  data descriptor behind it has 16 bytes, which is less than the end record has.

Each function keeps them and reads inside of the archive (`Outcome.Safe`), and so does any
sequence of calls (`useArchive_reads_inside`).
-/

namespace AndroidCore.Libziparchive

open Lib List
open Lib.Outcome (Safe)

/-! ### The invariants -/

/-- The end record is behind the central directory. -/
def Directory.Fits (file : List UInt8) (d : Directory) : Prop :=
  d.directoryOffset + d.cdLength + EocdRecord.size ≤ file.length

/-- The record in front of a name and the name are in the central directory. -/
def ZipString.Within (d : Directory) (s : ZipString) : Prop :=
  d.directoryOffset + CentralDirectoryRecord.size ≤ s.name ∧
    s.name + s.nameLength ≤ d.directoryOffset + d.cdLength

/-- All names of a hash table are in the central directory. -/
def HashTable.Within (d : Directory) (table : HashTable) : Prop :=
  ∀ s, some s ∈ table → s.Within d

/-- The data of an entry is in front of the central directory. -/
def ZipEntry.Fits (d : Directory) (entry : ZipEntry) : Prop :=
  entry.offset + entry.compressedLength.toNat ≤ d.directoryOffset ∧
    (entry.method = kCompressStored →
      entry.offset + entry.uncompressedLength.toNat ≤ d.directoryOffset)

/-- An open archive. -/
structure ZipArchive.Fits (file : List UInt8) (archive : ZipArchive) : Prop where
  directory : archive.directory.Fits file
  table : archive.hashTable.Within archive.directory

variable {s : ZipString} {table : HashTable}

theorem HashTable.Within.getD {d : Directory} (h : table.Within d) {i : Nat}
    (hs : table.getD i none = some s) : s.Within d := by
  rw [getD_eq_getElem?_getD] at hs
  cases hget : table[i]? with
  | none =>
    rw [hget] at hs
    cases hs
  | some slot =>
    rw [hget] at hs
    have hslot : slot = some s := hs
    exact h s (hslot ▸ mem_of_getElem? hget)

/-- A name of the central directory is in the archive. -/
theorem ZipString.Within.le_length {file : List UInt8} {d : Directory} (h : s.Within d)
    (hd : d.Fits file) : s.name + s.nameLength ≤ file.length := by
  have := h.2
  unfold Directory.Fits at hd
  omega

theorem safe_readAtOffset {file : List UInt8} {len off : Nat} (h : off + len ≤ file.length) :
    (readAtOffset file len off).Safe fun bytes => bytes.length = len := by
  exact .check fun _ => safe_view h

/-! ### Opening -/

theorem safe_mapCentralDirectory (file : List UInt8) :
    (mapCentralDirectory file).Safe (Directory.Fits file) := by
  refine .check fun _ => .check fun hlong => ?_
  refine (safe_readAtOffset (by omega)).bind fun scanBuffer _ => ?_
  cases scanForEocd scanBuffer (min kMaxEOCDSearch file.length - EocdRecord.size) with
  | none => exact .error _
  | some i =>
    refine .check fun hlength => .check fun hoffset =>
      .check fun _ => .check fun _ => ?_
    -- The calculated length is the length of the archive.
    refine .ok ?_
    simp only [Directory.Fits]
    omega

section

variable {file : List UInt8} {d : Directory}

theorem safe_equals (hs : s.Within d) (hd : d.Fits file) (name : List UInt8) :
    (s.equals file name).Safe fun _ => True := by
  unfold ZipString.equals
  split
  · exact .ok trivial
  · exact (safe_view (hs.le_length hd)).bind fun _ _ => .ok trivial

theorem safe_probe (htable : table.Within d) (hd : d.Fits file) (name : List UInt8) (fuel ent : Nat)
 : (probe file table name fuel ent).Safe fun _ => True := by
  induction fuel generalizing ent with
  | zero => exact .unfinished
  | succ fuel ih =>
    rw [probe]
    cases hslot : table.getD ent none with
    | none => exact .ok trivial
    | some s =>
      refine (safe_equals (htable.getD hslot) hd name).bind fun same _ => ?_
      cases same with
      | true => exact .ok trivial
      | false => exact ih _

theorem safe_addToHash (htable : table.Within d) (hd : d.Fits file) (hs : s.Within d)
    (name : List UInt8) :
    (addToHash file table s name).Safe fun table => HashTable.Within d table := by
  refine (safe_probe htable hd name _ _).bind fun ⟨ent, found⟩ _ => ?_
  cases found with
  | true => exact .error _
  | false =>
    refine .ok fun s' hs' => ?_
    rcases mem_or_eq_of_mem_set hs' with hmem | heq
    · exact htable s' hmem
    · rw [Option.some.inj heq]
      exact hs

/-- A round of the loop checks that the record and the name are in the central directory
before it reads them. -/
theorem safe_parseRecords (hd : d.Fits file) (n : Nat) {ptr : Nat} (hptr : d.directoryOffset ≤ ptr)
    (htable : table.Within d) :
    (parseRecords file d n ptr table).Safe fun table => HashTable.Within d table := by
  have hfits := hd
  unfold Directory.Fits at hfits
  induction n generalizing ptr table with
  | zero => exact .ok htable
  | succ n ih =>
    refine .check fun hrecord => ?_
    refine (safe_view (by omega)).bind fun record _ => ?_
    refine .check fun _ => .check fun _ => .check fun hname => ?_
    refine (safe_view (by omega)).bind fun name _ => ?_
    refine .check fun _ => ?_
    refine (safe_addToHash htable hd ⟨by simp only; omega, by simp only; omega⟩ name).bind
      fun table htable => ?_
    exact .check fun _ => ih (by omega) htable

end

theorem safe_openArchive (file : List UInt8) : (openArchive file).Safe (ZipArchive.Fits file) := by
  refine (safe_mapCentralDirectory file).bind fun d hd => ?_
  have hempty : HashTable.Within d (replicate
      (roundUpPower2 (UInt32.ofNat (1 + d.numEntries * 4 / 3))).toNat none) := by
    intro s hs
    cases eq_of_mem_replicate hs
  refine (safe_parseRecords hd _ le_rfl hempty).bind fun table htable => ?_
  exact .ok ⟨hd, htable⟩

/-! ### Lookups -/

section

variable {file : List UInt8} {archive : ZipArchive} (ha : archive.Fits file)
include ha

/-- The data of an entry is checked against the offset of the central directory. -/
theorem safe_checkLocalHeader (hs : s.Within archive.directory) (cdr : CentralDirectoryRecord)
    (lfh : LocalFileHeader) :
    (checkLocalHeader file archive s cdr lfh).Safe (ZipEntry.Fits archive.directory) := by
  have hfits := ha.directory
  unfold Directory.Fits at hfits
  refine .check fun _ => .check fun hlen => .check fun hname => ?_
  refine (safe_readAtOffset (by omega)).bind fun nameBuf _ => ?_
  refine (safe_view (hs.le_length ha.directory)).bind fun name _ => ?_
  refine .check fun _ => .check fun _ => .check fun hcompressed =>
    .check fun hstored => .ok ⟨?_, fun hmethod => ?_⟩
  · simp only
    omega
  · have : ¬ _ := fun hgt => hstored ⟨hmethod, hgt⟩
    simp only
    omega

theorem safe_findEntryAt (hs : s.Within archive.directory) :
    (findEntryAt file archive s).Safe (ZipEntry.Fits archive.directory) := by
  have hfits := ha.directory
  unfold Directory.Fits at hfits
  obtain ⟨hrecord, hname⟩ := hs
  refine .check fun _ => ?_
  -- The record is the one in front of the name.
  refine (safe_view (by omega)).bind fun record _ => ?_
  refine .check fun hheader => ?_
  refine (safe_readAtOffset (by omega)).bind fun lfhBuf _ => ?_
  exact .check fun _ => safe_checkLocalHeader ha ⟨hrecord, hname⟩ _ _

theorem safe_findEntry (entryName : List UInt8) :
    (findEntry file archive entryName).Safe (ZipEntry.Fits archive.directory) := by
  refine .check fun _ => ?_
  have hindex : (entryToIndex file archive.hashTable entryName).Safe fun _ => True := by
    refine (safe_probe ha.table ha.directory entryName _ _).bind fun ⟨ent, found⟩ _ => ?_
    cases found with
    | true => exact .ok trivial
    | false => exact .error _
  refine hindex.bind fun ent _ => ?_
  cases hslot : archive.hashTable.getD ent none with
  | none => exact .error _
  | some s => exact safe_findEntryAt ha (ha.table.getD hslot)

/-- The filters look at a part of the name. -/
theorem safe_accepts (hs : s.Within archive.directory) (h : IterationHandle) :
    (h.accepts file s).Safe fun _ => True := by
  have hle := hs.le_length ha.directory
  have hstarts : (if h.prefixFilter = [] then pure true
      else s.startsWith file h.prefixFilter : Reads Bool).Safe fun _ => True := by
    split
    · exact .ok trivial
    · unfold ZipString.startsWith
      split
      · exact .ok trivial
      · exact (safe_view (by omega)).bind fun _ _ => .ok trivial
  refine hstarts.bind fun starts _ => ?_
  cases starts with
  | false => exact .ok trivial
  | true =>
    rw [if_neg (by decide)]
    split
    · exact .ok trivial
    · unfold ZipString.endsWith
      split
      · exact .ok trivial
      · exact (safe_view (by omega)).bind fun _ _ => .ok trivial

theorem safe_nextSlot (h : IterationHandle) (n i : Nat) :
    (nextSlot file archive.hashTable h n i).Safe
      fun slot => ∀ found ∈ slot, found.2.Within archive.directory := by
  induction n generalizing i with
  | zero => exact .ok fun _ hfound => (nomatch hfound)
  | succ n ih =>
    rw [nextSlot]
    cases hslot : archive.hashTable.getD i none with
    | none => exact ih _
    | some s =>
      have hs := ha.table.getD hslot
      refine (safe_accepts ha hs h).bind fun accepted _ => ?_
      cases accepted with
      | false => exact ih _
      | true =>
        refine .ok fun found hfound => ?_
        cases hfound
        exact hs

theorem safe_next (h : IterationHandle) :
    (next file archive h).Safe
      fun r => ∀ found, r.2 = .ok found → found.1.Fits archive.directory := by
  refine (safe_nextSlot ha h _ _).bind fun slot hslot => ?_
  cases slot with
  | none => exact .ok fun found hfound => (nomatch hfound)
  | some found =>
    simp only
    refine (safe_findEntryAt ha (hslot _ rfl)).elim (fun entry hentry => ?_)
      (fun _ => .ok fun found hfound => (nomatch hfound)) Safe.unfinished
    refine .ok fun found hfound => ?_
    cases hfound
    exact hentry

end

/-! ### Extraction -/

section

variable {σ ω : Type} {file : List UInt8} {d : Directory} {entry : ZipEntry} (z : Zlib σ)
  (append : ω → List UInt8 → Option ω)

/-- What is left to read of the data. -/
theorem safe_refill (hd : d.Fits file) (he : entry.Fits d) {s : InflateState σ ω}
    (hs : s.remainingBytes ≤ entry.compressedLength.toNat) :
    (refill file entry s).Safe
      fun s => s.remainingBytes ≤ entry.compressedLength.toNat := by
  have hend := he.1
  unfold Directory.Fits at hd
  unfold refill
  split
  · have hsize : (if s.remainingBytes > kBufSize then kBufSize else s.remainingBytes)
        ≤ s.remainingBytes := by
      split <;> omega
    refine (safe_readAtOffset (by omega)).bind fun readBuf _ => .ok ?_
    simp only
    omega
  · exact .ok hs

/-- zlib and the writer do not read the archive. -/
theorem safe_inflateRound (s : InflateState σ ω) :
    (inflateRound z append s).Safe fun r => r.2.remainingBytes = s.remainingBytes := by
  refine .check fun _ => ?_
  split
  · split
    · exact .error _
    · exact .ok rfl
  · exact .ok rfl

theorem safe_inflateLoop (hd : d.Fits file) (he : entry.Fits d) (fuel : Nat)
    {s : InflateState σ ω} (hs : s.remainingBytes ≤ entry.compressedLength.toNat) :
    (inflateLoop file z append entry fuel s).Safe fun _ => True := by
  induction fuel generalizing s with
  | zero => exact .unfinished
  | succ fuel ih =>
    refine (safe_refill hd he hs).bind fun s hs => ?_
    refine (safe_inflateRound z append s).bind fun ⟨zerr, s'⟩ hs' => ?_
    simp only
    split
    · exact ih (hs'.le.trans hs)
    · exact .check fun _ => .ok trivial

theorem safe_copyLoop (hd : d.Fits file)
    (he : entry.offset + entry.uncompressedLength.toNat ≤ d.directoryOffset) (k : Nat)
    {count : Nat} (hcount : entry.uncompressedLength.toNat - count ≤ k) (crc : UInt32)
    (writer : ω) : (copyLoop file z append entry count crc writer).Safe fun _ => True := by
  have hfits := hd
  unfold Directory.Fits at hfits
  have hbuf : 0 < kBufSize := by decide
  -- The induction is on a bound of what is left to copy.
  induction k generalizing count crc writer with
  | zero =>
    rw [copyLoop]
    rw [dif_neg (by omega)]
    exact .ok trivial
  | succ k ih =>
    rw [copyLoop]
    by_cases hlt : count < entry.uncompressedLength.toNat
    · simp only [dif_pos hlt]
      have hblock : 0 < (if entry.uncompressedLength.toNat - count > kBufSize then kBufSize
            else entry.uncompressedLength.toNat - count) ∧
          (if entry.uncompressedLength.toNat - count > kBufSize then kBufSize
            else entry.uncompressedLength.toNat - count)
          ≤ entry.uncompressedLength.toNat - count := by
        split <;> omega
      generalize (if entry.uncompressedLength.toNat - count > kBufSize then kBufSize
        else entry.uncompressedLength.toNat - count) = blockSize at hblock
      refine (@safe_readAtOffset file blockSize _ (by omega)).elim (fun buf _ => ?_) Safe.error
        Safe.unfinished
      simp only
      split
      · exact .error _
      · exact ih (by omega) _ _
    · simp only [dif_neg hlt]
      exact .ok trivial

/-- The data descriptor may lie over the central directory and the end record, but not
behind it. -/
theorem safe_validateDataDescriptor (hd : d.Fits file) (he : entry.Fits d) :
    (validateDataDescriptor file entry).Safe fun _ => True := by
  have hdd : DataDescriptor.size = 12 := rfl
  have heocd : EocdRecord.size = 22 := rfl
  have hend : entry.offset + (if entry.method ≠ kCompressStored
      then entry.compressedLength.toNat else entry.uncompressedLength.toNat)
      ≤ d.directoryOffset := by
    by_cases hmethod : entry.method = kCompressStored
    · rw [if_neg (by simpa using hmethod)]
      exact he.2 hmethod
    · rw [if_pos hmethod]
      exact he.1
  unfold Directory.Fits at hd
  refine (safe_readAtOffset (by omega)).bind fun ddBuf _ => ?_
  exact .check fun _ => .ok trivial

theorem safe_extractToWriter (hd : d.Fits file) (he : entry.Fits d) (fuel : Nat) (writer : ω) :
    (extractToWriter file z append fuel entry writer).Safe fun _ => True := by
  have hreturn : (if entry.method = kCompressStored then
        copyEntryToWriter file z append entry writer
      else if entry.method = kCompressDeflated then
        inflateEntryToWriter file z append fuel entry writer
      else .error .iterationEnd : Reads (UInt32 × ω)).Safe fun _ => True := by
    split
    next hstored => exact safe_copyLoop z append hd (he.2 hstored) _ le_rfl _ _
    next =>
      split
      · unfold inflateEntryToWriter
        split
        · exact .error _
        · exact safe_inflateLoop z append hd he fuel le_rfl
      · exact .error _
  unfold extractToWriter
  refine hreturn.elim (fun result _ => ?_) (fun _ => .check fun _ => .error _)
    Safe.unfinished
  have hdescriptor : (if entry.hasDataDescriptor = true then
      validateDataDescriptor file entry else pure () : Reads Unit).Safe fun _ => True := by
    split
    · exact safe_validateDataDescriptor hd he
    · exact .ok trivial
  exact hdescriptor.bind fun _ _ => .check fun _ => .ok trivial

end

/-! ### Sequences of calls -/

/-- All that a caller has is in the archive. -/
structure Session.Fits (file : List UInt8) (s : Session) : Prop where
  archive : s.archive.Fits file
  entries : ∀ entry ∈ s.entries, entry.Fits s.archive.directory

theorem Session.Fits.add {file : List UInt8} {s : Session} (h : s.Fits file) {entry : ZipEntry}
    (he : entry.Fits s.archive.directory) (iterations : List IterationHandle) :
    Session.Fits file { s with iterations := iterations, entries := s.entries ++ [entry] } :=
  ⟨h.archive, forall_mem_append.mpr ⟨h.entries, forall_mem_singleton.mpr he⟩⟩

section

variable {σ ω : Type} {file : List UInt8} (z : Zlib σ) (append : ω → List UInt8 → Option ω)

/-- Every call reads inside of the archive. -/
theorem Session.Fits.call {s : Session} (h : s.Fits file) (call : Call ω) :
    (s.call file z append call).Safe (Session.Fits file) := by
  cases call with
  | findEntry name =>
    simp only [Session.call]
    exact (safe_findEntry h.archive name).elim (fun entry he => .ok (h.add he _))
      (fun _ => .ok h) Safe.unfinished
  | startIteration prefixFilter suffixFilter => exact .ok ⟨h.archive, h.entries⟩
  | next iteration =>
    simp only [Session.call]
    cases s.iterations[iteration]? with
    | none => exact .ok h
    | some handle =>
      refine (safe_next h.archive handle).bind fun ⟨handle', found⟩ hfound => ?_
      cases found with
      | error e => exact .ok ⟨h.archive, h.entries⟩
      | ok found => exact .ok (h.add (hfound _ rfl) _)
  | extract entry writer fuel =>
    simp only [Session.call]
    cases hentry : s.entries[entry]? with
    | none => exact .ok h
    | some e =>
      have he := h.entries e (mem_of_getElem? hentry)
      simp only
      exact (safe_extractToWriter z append h.archive.directory he fuel writer).elim
        (fun _ _ => .ok h) (fun _ => .ok h) Safe.unfinished

theorem Session.Fits.calls {s : Session} (h : s.Fits file) (calls : List (Call ω)) :
    (s.calls file z append calls).Safe (Session.Fits file) := by
  induction calls generalizing s with
  | nil => exact .ok h
  | cons call rest ih => exact (h.call z append call).bind fun _ => ih

/-- Whatever the bytes of an archive are, and whatever zlib and the writers do, opening it
and any sequence of calls on it read inside of the archive. -/
theorem useArchive_reads_inside (file : List UInt8) (calls : List (Call ω)) (off len : Nat) :
    useArchive file z append calls ≠ .outside off len := by
  have hsafe : (useArchive file z append calls).Safe (Session.Fits file) := by
    refine (safe_openArchive file).bind fun archive ha => ?_
    have hstart : Session.Fits file ⟨archive, [], []⟩ := ⟨ha, fun _ hmem => (nomatch hmem)⟩
    exact hstart.calls z append calls
  exact hsafe.not_outside off len

end

end AndroidCore.Libziparchive
