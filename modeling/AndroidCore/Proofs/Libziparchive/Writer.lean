import AndroidCore.Lib.ExceptBind
import AndroidCore.Libziparchive.ZipWriter
import AndroidCore.Proofs.Libziparchive.Records

/-!
# `AndroidCore.Proofs.Libziparchive.Writer`: the layout of what the writer writes

Between two entries the output holds the entries that are finished, one behind the other:
header, path, padding, payload and, for some, a data descriptor (`Member.bytes`). Inside of
an entry it also holds the start of the entry and the payload so far. `Holds` is this
invariant; every call keeps it (`Holds.call`), and a finished archive is the entries, the
records of the central directory and the end record (`Between.finish`).

The sizes in an entry are kept in 32 bits, and zlib gets the length of its input in 32
bits. What is said about the content of a compressed entry is therefore said for entries
with less than `2 ^ 32` bytes.
-/

namespace AndroidCore.Libziparchive

open Lib List ZipWriter

/-! ### The output -/

/-- The bytes in front of the position. -/
structure Output.Has (o : Output) (bytes : List UInt8) : Prop where
  pos : o.pos = bytes.length
  take : o.bytes.take o.pos = bytes

namespace Output.Has

variable {o : Output} {a b : List UInt8}

theorem fwrite (h : o.Has a) (data : List UInt8) : (o.fwrite data).Has (a ++ data) := by
  refine ⟨?_, ?_⟩
  · simp [Output.fwrite, h.pos]
  · have hlen : (o.bytes.take o.pos ++ data).length = o.pos + data.length := by
      rw [length_append, h.take, h.pos]
    simp only [Output.fwrite]
    rw [take_left' hlen, h.take]

/-- Going back. -/
theorem fseeko (h : o.Has (a ++ b)) : (o.fseeko a.length).Has a := by
  refine ⟨rfl, ?_⟩
  have hle : a.length ≤ o.pos := by
    rw [h.pos, length_append]
    omega
  change o.bytes.take a.length = a
  rw [← Nat.min_eq_left hle, ← take_take, h.take, take_left' rfl]

/-- Going back, writing over what is there, and going to the end again. -/
theorem patch {c old new : List UInt8} (h : o.Has (a ++ old ++ c))
    (hlen : new.length = old.length) :
    (((o.fseeko a.length).fwrite new).fseeko o.pos).Has (a ++ new ++ c) := by
  have hpos := h.pos
  simp only [length_append] at hpos
  refine ⟨?_, ?_⟩
  · change o.pos = _
    simp only [length_append]
    omega
  · change ((o.bytes.take a.length) ++ new ++ o.bytes.drop (a.length + new.length)).take o.pos = _
    have hall : o.bytes = a ++ old ++ c ++ o.bytes.drop o.pos := by
      conv_lhs => rw [← take_append_drop o.pos o.bytes, h.take]
    have htake : o.bytes.take a.length = a := by
      rw [hall, append_assoc, append_assoc, take_left' rfl]
    have hdrop : o.bytes.drop (a.length + new.length) = c ++ o.bytes.drop o.pos := by
      conv_lhs => rw [hall]
      rw [append_assoc, drop_left' (by simp [hlen])]
    rw [htake, hdrop, ← append_assoc, take_left' (by simp; omega)]

end Output.Has

/-! ### Compressed streams -/

section

variable {τ : Type}

/-- The states of a stream that has taken `data` and put out `out`. -/
inductive Deflates (dz : Deflater τ) : τ → (data out : List UInt8) → Prop
  | init {t : τ} (h : dz.deflateInit = some t) : Deflates dz t [] []
  | step {t : τ} {data out input consumed : List UInt8} {finish : Bool} {room : Nat}
      (h : Deflates dz t data out)
      (hinput : input = consumed ++ (dz.deflate t input finish room).rest)
      (hok : (dz.deflate t input finish room).zerr = .ok) :
      Deflates dz (dz.deflate t input finish room).stream (data ++ consumed)
        (out ++ (dz.deflate t input finish room).output)

/-- The streams that `deflate` makes of `data`. -/
def Packed (dz : Deflater τ) (out data : List UInt8) : Prop :=
  ∃ t before room, Deflates dz t data before ∧ (dz.deflate t [] true room).zerr = .streamEnd ∧
    out = before ++ (dz.deflate t [] true room).output

/-- `deflate` takes its input from the front, and does not write more than there is room
for. -/
structure Deflater.Lawful (dz : Deflater τ) : Prop where
  consumes : ∀ t input finish room,
    ∃ consumed, input = consumed ++ (dz.deflate t input finish room).rest
  fits : ∀ t input finish room, (dz.deflate t input finish room).output.length ≤ room

end

/-! ### Entries in the output -/

/-- A finished entry: its bytes in the archive, and the bytes that were written to it. -/
structure Member where
  entry : FileEntry
  payload : List UInt8
  data : List UInt8

/-- The bytes of an entry in the archive. -/
def Member.bytes (seekable : Bool) (m : Member) : List UInt8 :=
  m.entry.startBytes (m.entry.hasDescriptor seekable) ++ m.payload ++
    if m.entry.hasDescriptor seekable then m.entry.descriptorBytes else []

/-- The bytes of the entries. -/
def layout (seekable : Bool) (members : List Member) : List UInt8 :=
  members.flatMap (Member.bytes seekable)

/-- The records of the entries. -/
def directoryBytes (seekable : Bool) (members : List Member) : List UInt8 :=
  members.flatMap fun m => m.entry.recordBytes seekable

/-- Every entry has the offset of its header. -/
def Placed (seekable : Bool) (members : List Member) : Prop :=
  ∀ a m b, members = a ++ m :: b → m.entry.localFileHeaderOffset = (layout seekable a).length

section

variable {τ : Type} {dz : Deflater τ}

/-- The fields of an entry, for its payload and its data. -/
structure Describes (dz : Deflater τ) (e : FileEntry) (payload data : List UInt8) : Prop where
  compressed : e.compressedSize = UInt32.ofNat payload.length
  uncompressed : e.uncompressedSize = UInt32.ofNat data.length
  crc : data.length < 2 ^ 32 → e.crc32 = dz.crc32 0 data
  name : isValidEntryName e.path = true
  padding : e.paddingLength.toNat < 2 ^ 16

/-- A finished entry is stored or compressed. -/
structure Member.Valid (dz : Deflater τ) (m : Member) : Prop where
  describes : Describes dz m.entry m.payload m.data
  content : m.entry.compressionMethod = kCompressStored ∧ m.payload = m.data ∨
    m.entry.compressionMethod = kCompressDeflated ∧
      (m.data.length < 2 ^ 32 → Packed dz m.payload m.data)

/-- The writer between two entries. -/
structure Between (dz : Deflater τ) (w : ZipWriter τ) (members : List Member) : Prop where
  state : w.state = .writingZip
  file : w.file.Has (layout w.seekable members)
  offset : w.currentOffset = (layout w.seekable members).length
  files : w.files = members.map Member.entry
  valid : ∀ m ∈ members, m.Valid dz
  placed : Placed w.seekable members

/-- The output of a writer in an entry, with its payload so far. -/
structure Open (dz : Deflater τ) (w : ZipWriter τ) (members : List Member)
    (payload : List UInt8) : Prop where
  state : w.state = .writingEntry
  file : w.file.Has (layout w.seekable members ++ w.currentFileEntry.startBytes true ++ payload)
  offset : w.currentOffset
    = (layout w.seekable members ++ w.currentFileEntry.startBytes true ++ payload).length
  files : w.files = members.map Member.entry
  valid : ∀ m ∈ members, m.Valid dz
  placed : Placed w.seekable members
  start : w.currentFileEntry.localFileHeaderOffset = (layout w.seekable members).length
  compressed : w.currentFileEntry.compressedSize = UInt32.ofNat payload.length
  name : isValidEntryName w.currentFileEntry.path = true
  padding : w.currentFileEntry.paddingLength.toNat < 2 ^ 16

/-- The writer in an entry, with the data that was written to it. The buffer of a compressed
entry is not full. -/
structure Inside (dz : Deflater τ) (w : ZipWriter τ) (members : List Member)
    (payload data : List UInt8) : Prop where
  opened : Open dz w members payload
  uncompressed : w.currentFileEntry.uncompressedSize = UInt32.ofNat data.length
  crc : data.length < 2 ^ 32 → w.currentFileEntry.crc32 = dz.crc32 0 data
  content : w.currentFileEntry.compressionMethod = kCompressStored ∧ payload = data ∨
    w.currentFileEntry.compressionMethod = kCompressDeflated ∧
      ∃ t, w.zStream = some t ∧ w.buffer.length < kBufSize ∧
        (data.length < 2 ^ 32 → Deflates dz t data (payload ++ w.buffer))

theorem deflated_of_stored {e : FileEntry} (h : e.compressionMethod = kCompressStored) :
    e.deflated = false := by
  unfold FileEntry.deflated
  rw [h]
  decide

theorem deflated_of_deflated {e : FileEntry} (h : e.compressionMethod = kCompressDeflated) :
    e.deflated = true := by
  unfold FileEntry.deflated
  rw [h]
  decide

@[simp] theorem layout_append (seekable : Bool) (a b : List Member) :
    layout seekable (a ++ b) = layout seekable a ++ layout seekable b := by
  simp [layout]

variable {members : List Member}

theorem Placed.append {seekable : Bool} (h : Placed seekable members) {m : Member}
    (hm : m.entry.localFileHeaderOffset = (layout seekable members).length) :
    Placed seekable (members ++ [m]) := by
  intro a m' b heq
  rcases eq_nil_or_concat b with rfl | ⟨b, last, rfl⟩
  · obtain ⟨rfl, hlast⟩ := append_inj' heq rfl
    cases hlast
    exact hm
  · have heq' : members ++ [m] = (a ++ m' :: b) ++ [last] := by simpa using heq
    obtain ⟨rfl, -⟩ := append_inj' heq' rfl
    exact h a m' b rfl

theorem Placed.of_append {seekable : Bool} {a b : List Member} (h : Placed seekable (a ++ b)) :
    Placed seekable a := by
  intro a' m b' heq
  exact h a' m (b' ++ b) (by rw [heq]; simp)

/-! ### Starting an entry -/

theorem between_new (dz : Deflater τ) (sink : Sink) : Between dz (new sink) [] where
  state := rfl
  file := ⟨rfl, rfl⟩
  offset := rfl
  files := rfl
  valid := fun _ hm => (nomatch hm)
  placed := by
    intro a m b heq
    cases a <;> cases heq

theorem length_startBytes (e : FileEntry) (dd : Bool) :
    (e.startBytes dd).length
      = LocalFileHeader.size + e.path.length + e.paddingLength.toNat := by
  simp [FileEntry.startBytes, Nat.add_assoc]

/-- What is fixed about an entry when it is started. -/
structure Started (w w' : ZipWriter τ) (path : List UInt8) (flags : Nat) : Prop where
  sink : w'.sink = w.sink
  path : w'.currentFileEntry.path = path
  method : w'.currentFileEntry.compressionMethod
    = if flags &&& kCompress ≠ 0 then kCompressDeflated else kCompressStored

variable {w w' : ZipWriter τ} {path : List UInt8} {flags : Nat}

theorem Between.startAligned (h : Between dz w members) {time : UInt16 × UInt16}
    {alignment : UInt32} (hok : w.startAlignedEntryWithTime dz path flags time alignment = .ok w') :
    Inside dz w' members [] [] ∧ Started w w' path flags := by
  simp only [ZipWriter.startAlignedEntryWithTime, ite_error_eq_ok_iff, Except.ok.injEq,
    decide_eq_true_eq] at hok
  obtain ⟨-, -, -, hname, hnone, rfl⟩ := hok
  refine ⟨⟨⟨rfl, ?_, ?_, h.files, h.valid, h.placed, h.offset, rfl, ?_, ?_⟩, rfl, fun _ => rfl, ?_⟩,
    rfl, rfl, rfl⟩
  · rw [append_nil]
    exact h.file.fwrite _
  · simp only [length_append, length_startBytes]
    rw [← Nat.add_assoc, ← Nat.add_assoc]
    exact congrArg (· + LocalFileHeader.size + path.length + _) h.offset
  · simpa using hname
  · exact UInt16.toNat_lt _
  by_cases hcompress : flags &&& kCompress ≠ 0
  · simp only [if_pos hcompress] at hnone ⊢
    obtain ⟨t, ht⟩ : ∃ t, dz.deflateInit = some t := by
      refine Option.ne_none_iff_exists'.mp fun hn => hnone ⟨hcompress, ?_⟩
      rw [hn, Option.isNone_none]
    exact .inr ⟨trivial, t, ht, by decide, fun _ => .init ht⟩
  · simp only [if_neg hcompress]
    exact .inl ⟨trivial, trivial⟩

theorem Between.start (h : Between dz w members) {time : UInt16 × UInt16}
    (hok : w.startEntryWithTime dz path flags time = .ok w') :
    Inside dz w' members [] [] ∧ Started w w' path flags := by
  unfold ZipWriter.startEntryWithTime at hok
  split at hok
  · obtain ⟨hin, hsink, hpath, hmethod⟩ := h.startAligned hok
    -- Without the flag for the alignment the one for the compression is the same.
    have hflag : (flags ^^^ kAlign32) &&& kCompress = flags &&& kCompress := by
      rw [Nat.and_xor_distrib_right, show kAlign32 &&& kCompress = 0 by decide, Nat.xor_zero]
    rw [hflag] at hmethod
    exact ⟨hin, hsink, hpath, hmethod⟩
  · exact h.startAligned hok

/-! ### Writing to an entry -/

/-- What a call leaves alone of the entry it writes to. -/
structure SameEntry (w w' : ZipWriter τ) : Prop where
  sink : w'.sink = w.sink
  path : w'.currentFileEntry.path = w.currentFileEntry.path
  method : w'.currentFileEntry.compressionMethod = w.currentFileEntry.compressionMethod
  uncompressed : w'.currentFileEntry.uncompressedSize = w.currentFileEntry.uncompressedSize
  crc : w'.currentFileEntry.crc32 = w.currentFileEntry.crc32

theorem SameEntry.refl (w : ZipWriter τ) : SameEntry w w := ⟨rfl, rfl, rfl, rfl, rfl⟩

theorem SameEntry.trans {w'' : ZipWriter τ} (h : SameEntry w w') (h' : SameEntry w' w'') :
    SameEntry w w'' :=
  ⟨h'.sink.trans h.sink, h'.path.trans h.path, h'.method.trans h.method,
    h'.uncompressed.trans h.uncompressed, h'.crc.trans h.crc⟩

theorem ofNat_length_append (a b : List UInt8) :
    UInt32.ofNat a.length + UInt32.ofNat b.length = UInt32.ofNat (a ++ b).length := by
  rw [length_append, UInt32.ofNat_add]

variable {payload data : List UInt8} {fuel : Nat}

section
variable (h : Open dz w members payload)
include h

/-- More payload. -/
theorem Open.storeBytes (data : List UInt8) :
    Open dz (w.storeBytes data) members (payload ++ data) ∧
      SameEntry w (w.storeBytes data) := by
  refine ⟨⟨h.state, ?_, ?_, h.files, h.valid, h.placed, h.start, ?_, h.name, h.padding⟩,
    rfl, rfl, rfl, rfl, rfl⟩
  · rw [← append_assoc]
    exact h.file.fwrite data
  · rw [← append_assoc, length_append]
    exact congrArg (· + data.length) h.offset
  · change w.currentFileEntry.compressedSize + _ = _
    rw [h.compressed, ofNat_length_append]

/-- The buffer becomes payload. -/
theorem Open.writeBuffer :
    Open dz w.writeBuffer members (payload ++ w.buffer) ∧ SameEntry w w.writeBuffer := by
  have hopen := (h.storeBytes w.buffer).1
  exact ⟨{ hopen with }, rfl, rfl, rfl, rfl, rfl⟩

theorem Open.withBuffer (buffer : List UInt8) :
    Open dz { w with buffer := buffer } members payload :=
  { h with }

/-- The loop of `CompressBytes` takes all of its input. -/
theorem Open.compressLoop (hlaw : dz.Lawful) {input : List UInt8} {stream : τ}
    (hbuf : w.buffer.length < kBufSize) (hok : w.compressLoop dz fuel stream input = .ok w') :
    ∃ payload' t, Open dz w' members payload' ∧ SameEntry w w' ∧ w'.zStream = some t ∧
      w'.buffer.length < kBufSize ∧
      ∀ data, Deflates dz stream data (payload ++ w.buffer) →
        Deflates dz t (data ++ input) (payload' ++ w'.buffer) := by
  induction fuel generalizing w payload input stream with
  | zero => cases hok
  | succ fuel ih =>
    rw [compressLoop] at hok
    by_cases hinput : input = []
    · rw [if_pos hinput] at hok
      cases hok
      refine ⟨payload, stream, { h with }, ⟨rfl, rfl, rfl, rfl, rfl⟩, rfl, hbuf,
        fun data hdata => ?_⟩
      rw [hinput, append_nil]
      exact hdata
    · simp only [if_neg hinput, ite_error_eq_ok_iff, not_not] at hok
      obtain ⟨hzerr, hok⟩ := hok
      obtain ⟨consumed, hconsumed⟩ :=
        hlaw.consumes stream input false (kBufSize - w.buffer.length)
      have hfits := hlaw.fits stream input false (kBufSize - w.buffer.length)
      have hstep : ∀ data before, Deflates dz stream data before →
          Deflates dz (dz.deflate stream input false (kBufSize - w.buffer.length)).stream
            (data ++ consumed)
            (before ++ (dz.deflate stream input false (kBufSize - w.buffer.length)).output) :=
        fun data before hdata => .step hdata hconsumed hzerr
      generalize dz.deflate stream input false (kBufSize - w.buffer.length) = step
        at hok hconsumed hfits hstep
      have hopen := h.withBuffer (w.buffer ++ step.output)
      -- A full buffer is written, and the loop goes on with what is left.
      obtain ⟨w₁, payload₁, hopen₁, hsame₁, hlt₁, hall₁, hok⟩ : ∃ w₁ payload₁,
          Open dz w₁ members payload₁ ∧ SameEntry w w₁ ∧ w₁.buffer.length < kBufSize ∧
          payload₁ ++ w₁.buffer = payload ++ w.buffer ++ step.output ∧
          w₁.compressLoop dz fuel step.stream step.rest = .ok w' := by
        by_cases hfull : (w.buffer ++ step.output).length = kBufSize
        · rw [if_pos hfull] at hok
          obtain ⟨hopen', hsame⟩ := hopen.writeBuffer
          refine ⟨_, _, hopen', { hsame with }, show 0 < kBufSize by decide, ?_, hok⟩
          exact (append_nil _).trans (append_assoc _ _ _).symm
        · rw [if_neg hfull] at hok
          rw [length_append] at hfull
          refine ⟨_, _, hopen, ⟨rfl, rfl, rfl, rfl, rfl⟩, ?_, (append_assoc _ _ _).symm, hok⟩
          rw [length_append]
          omega
      obtain ⟨payload', t, hend, hsame', ht, hlt, hdeflates⟩ := ih hopen₁ hlt₁ hok
      refine ⟨payload', t, hend, hsame₁.trans hsame', ht, hlt, fun data hdata => ?_⟩
      have hnext := hstep data _ hdata
      rw [← hall₁] at hnext
      have hall := hdeflates _ hnext
      rwa [append_assoc, ← hconsumed] at hall

/-- `FlushCompressedBytes` ends the stream. -/
theorem Open.flushLoop (hlaw : dz.Lawful) {stream : τ} (hok : w.flushLoop dz fuel stream = .ok w') :
    ∃ payload', Open dz w' members payload' ∧ SameEntry w w' ∧
      ∀ data, Deflates dz stream data (payload ++ w.buffer) → Packed dz payload' data := by
  induction fuel generalizing w payload stream with
  | zero => cases hok
  | succ fuel ih =>
    rw [flushLoop] at hok
    obtain ⟨consumed, hconsumed⟩ := hlaw.consumes stream [] true (kBufSize - w.buffer.length)
    have hnil : consumed = [] := (append_eq_nil_iff.mp hconsumed.symm).1
    obtain ⟨hopen, hsame⟩ := (h.withBuffer (w.buffer ++
      (dz.deflate stream [] true (kBufSize - w.buffer.length)).output)).writeBuffer
    cases hzerr : (dz.deflate stream [] true (kBufSize - w.buffer.length)).zerr with
    | ok =>
      rw [hzerr] at hok
      simp only at hok
      split at hok
      · cases hok
      · obtain ⟨payload', hend, hsame', hpacked⟩ := ih hopen hok
        refine ⟨payload', hend, SameEntry.trans { hsame with } hsame',
          fun data hdata => hpacked data ?_⟩
        have hnext := Deflates.step hdata hconsumed hzerr
        rw [hnil, append_nil, append_assoc] at hnext
        change Deflates _ _ _ (payload ++ _ ++ [])
        rwa [append_nil]
    | streamEnd =>
      rw [hzerr] at hok
      cases hok
      exact ⟨_, { hopen with }, { hsame with },
        fun data hdata => ⟨stream, _, _, hdata, hzerr, (append_assoc _ _ _).symm⟩⟩
    | failed =>
      rw [hzerr] at hok
      cases hok

end

/-- The checksum goes on. -/
theorem crc32_append (crc : UInt32) (a b : List UInt8) :
    dz.crc32 (dz.crc32 crc a) b = dz.crc32 crc (a ++ b) := by
  simp [Deflater.crc32]

theorem Inside.writeBytes (hlaw : dz.Lawful) {bytes : List UInt8}
    (h : Inside dz w members payload data) (hok : w.writeBytes dz bytes fuel = .ok w') :
    ∃ payload', Inside dz w' members payload' (data ++ bytes) ∧ w'.sink = w.sink ∧
      w'.currentFileEntry.path = w.currentFileEntry.path ∧
      w'.currentFileEntry.compressionMethod = w.currentFileEntry.compressionMethod := by
  unfold ZipWriter.writeBytes at hok
  rw [if_neg (fun hne => hne h.opened.state)] at hok
  obtain ⟨mid, hmid, hend⟩ := bind_eq_ok_iff.mp hok
  cases hend
  -- The data that is added to the entry.
  have hadd : ∀ {payload' : List UInt8}, Open dz mid members payload' → SameEntry w mid →
      Open dz { mid with currentFileEntry := mid.currentFileEntry.addData dz bytes } members
          payload' ∧
        (mid.currentFileEntry.addData dz bytes).uncompressedSize
          = UInt32.ofNat (data ++ bytes).length ∧
        ((data ++ bytes).length < 2 ^ 32 →
          (mid.currentFileEntry.addData dz bytes).crc32 = dz.crc32 0 (data ++ bytes)) := by
    intro payload' hopen hsame
    refine ⟨{ hopen with }, ?_, fun hlt => ?_⟩
    · change mid.currentFileEntry.uncompressedSize + _ = _
      rw [hsame.uncompressed, h.uncompressed, ofNat_length_append]
    · rw [length_append] at hlt
      change dz.crc32 mid.currentFileEntry.crc32 (bytes.take (bytes.length % 2 ^ 32)) = _
      rw [Nat.mod_eq_of_lt (by omega), take_length, hsame.crc, h.crc (by omega),
        crc32_append]
  rcases h.content with ⟨hmethod, hpayload⟩ | ⟨hmethod, t, ht, hbuf, hdeflates⟩
  · rw [deflated_of_stored hmethod] at hmid
    cases hmid
    obtain ⟨hopen, hsame⟩ := h.opened.storeBytes bytes
    obtain ⟨hopen', huncompressed, hcrc⟩ := hadd hopen hsame
    refine ⟨payload ++ bytes, ⟨hopen', huncompressed, hcrc, .inl ⟨hmethod, ?_⟩⟩, rfl, rfl, rfl⟩
    rw [hpayload]
  · rw [deflated_of_deflated hmethod] at hmid
    simp only [compressBytes, ht] at hmid
    obtain ⟨payload', t', hopen, hsame, ht', hlt, hnext⟩ :=
      h.opened.compressLoop hlaw hbuf hmid
    obtain ⟨hopen', huncompressed, hcrc⟩ := hadd hopen hsame
    refine ⟨payload', ⟨hopen', huncompressed, hcrc, .inr ⟨hsame.method.trans hmethod, t', ht',
      hlt, fun hsize => ?_⟩⟩, hsame.sink, hsame.path, hsame.method⟩
    rw [length_append] at hsize
    have hall := hnext data (hdeflates (by omega))
    rwa [Nat.mod_eq_of_lt (by omega), take_length] at hall

/-! ### Finishing and discarding entries -/

/-- The last payload of an entry. -/
theorem Inside.flush (hlaw : dz.Lawful) (h : Inside dz w members payload data)
    (hok : w.flushCompressedBytes dz fuel = .ok w') :
    ∃ payload', Open dz w' members payload' ∧ SameEntry w w' ∧
      Member.Valid dz ⟨w'.currentFileEntry, payload', data⟩ := by
  have hvalid : ∀ {payload'}, Open dz w' members payload' → SameEntry w w' →
      Describes dz w'.currentFileEntry payload' data := by
    intro payload' hopen hsame
    exact ⟨hopen.compressed, hsame.uncompressed.trans h.uncompressed,
      fun hlt => hsame.crc.trans (h.crc hlt), hopen.name, hopen.padding⟩
  unfold flushCompressedBytes at hok
  rcases h.content with ⟨hmethod, hpayload⟩ | ⟨hmethod, t, ht, hbuf, hdeflates⟩
  · rw [deflated_of_stored hmethod] at hok
    cases hok
    have hsame := SameEntry.refl w
    exact ⟨payload, h.opened, hsame, hvalid h.opened hsame, .inl ⟨hmethod, hpayload⟩⟩
  · rw [deflated_of_deflated hmethod, ht] at hok
    obtain ⟨payload', hopen, hsame, hpacked⟩ := h.opened.flushLoop hlaw hok
    refine ⟨payload', hopen, hsame, hvalid hopen hsame, .inr ⟨?_, fun hlt => ?_⟩⟩
    · exact hsame.method.trans hmethod
    · exact hpacked data (hdeflates hlt)

/-- One more finished entry. -/
theorem Open.close (h : Open dz w members payload)
    (hvalid : Member.Valid dz ⟨w.currentFileEntry, payload, data⟩) (hsink : w'.sink = w.sink)
    (hstate : w'.state = .writingZip) (hfile : w'.file.Has (layout w.seekable members ++
      Member.bytes w.seekable ⟨w.currentFileEntry, payload, data⟩))
    (hoffset : w'.currentOffset = (layout w.seekable members ++
      Member.bytes w.seekable ⟨w.currentFileEntry, payload, data⟩).length)
    (hfiles : w'.files = w.files ++ [w.currentFileEntry]) :
    Between dz w' (members ++ [⟨w.currentFileEntry, payload, data⟩]) := by
  have hseek : w'.seekable = w.seekable := congrArg Sink.isReg hsink
  have hlayout : layout w.seekable (members ++ [⟨w.currentFileEntry, payload, data⟩])
      = layout w.seekable members ++
        Member.bytes w.seekable ⟨w.currentFileEntry, payload, data⟩ := by
    simp [layout]
  refine ⟨hstate, ?_, ?_, ?_, ?_, ?_⟩
  · rw [hseek, hlayout]
    exact hfile
  · rw [hseek, hlayout]
    exact hoffset
  · rw [hfiles, h.files]
    simp
  · exact forall_mem_append.mpr ⟨h.valid, forall_mem_singleton.mpr hvalid⟩
  · rw [hseek]
    exact h.placed.append h.start

theorem Inside.finishEntry (hlaw : dz.Lawful) (h : Inside dz w members payload data)
    (hok : w.finishEntry dz fuel = .ok w') :
    ∃ m : Member, Between dz w' (members ++ [m]) ∧ w'.sink = w.sink ∧ m.data = data ∧
      m.entry.path = w.currentFileEntry.path ∧
      m.entry.compressionMethod = w.currentFileEntry.compressionMethod := by
  unfold ZipWriter.finishEntry at hok
  rw [if_neg (fun hne => hne h.opened.state)] at hok
  obtain ⟨mid, hmid, hend⟩ := bind_eq_ok_iff.mp hok
  obtain ⟨payload', hopen, hsame, hvalid⟩ := h.flush hlaw hmid
  refine ⟨⟨mid.currentFileEntry, payload', data⟩, ?_⟩
  by_cases hdescriptor : mid.currentFileEntry.hasDescriptor mid.seekable = true
  · -- The header stays, and a data descriptor comes behind the data.
    rw [if_pos hdescriptor] at hend
    cases hend
    have hbytes : Member.bytes mid.seekable ⟨mid.currentFileEntry, payload', data⟩
        = mid.currentFileEntry.startBytes true ++ payload' ++
          mid.currentFileEntry.descriptorBytes := by
      simp [Member.bytes, hdescriptor]
    refine ⟨hopen.close hvalid rfl rfl ?_ ?_ rfl, hsame.sink, rfl, hsame.path, hsame.method⟩
    · have hfile := hopen.file.fwrite mid.currentFileEntry.descriptorBytes
      rw [hbytes]
      simp only [append_assoc] at hfile ⊢
      exact hfile
    · rw [hbytes]
      have hoffset := congrArg (· + mid.currentFileEntry.descriptorBytes.length) hopen.offset
      simpa only [length_append, Nat.add_assoc] using hoffset
  · rw [if_neg hdescriptor, ite_error_eq_ok_iff] at hend
    cases hend.2
    -- The header is rewritten with the sizes; it has the same length.
    have hbytes : Member.bytes mid.seekable ⟨mid.currentFileEntry, payload', data⟩
        = mid.currentFileEntry.startBytes false ++ payload' := by
      simp [Member.bytes, hdescriptor]
    have hsplit : ∀ dd, mid.currentFileEntry.startBytes dd ++ payload'
        = (copyFromFileEntry mid.currentFileEntry dd).encode ++
          (mid.currentFileEntry.path ++
            replicate mid.currentFileEntry.paddingLength.toNat 0 ++ payload') := by
      simp [FileEntry.startBytes]
    refine ⟨hopen.close hvalid rfl rfl ?_ ?_ rfl, hsame.sink, rfl, hsame.path, hsame.method⟩
    · have hfile := hopen.file
      rw [append_assoc, hsplit, ← append_assoc] at hfile
      have hlength : (copyFromFileEntry mid.currentFileEntry false).encode.length
          = (copyFromFileEntry mid.currentFileEntry true).encode.length := by
        simp
      have hpatch := hfile.patch hlength
      rw [hbytes, hsplit, ← append_assoc]
      have hpos : mid.file.pos = mid.currentOffset := hopen.file.pos.trans hopen.offset.symm
      rw [hpos, ← hopen.start] at hpatch
      exact hpatch
    · rw [hbytes]
      have hoffset := hopen.offset
      simp only [length_append, length_startBytes] at hoffset ⊢
      omega

theorem Between.discardLastEntry (h : Between dz w members) (hok : w.discardLastEntry = .ok w') :
    ∃ init m, members = init ++ [m] ∧ Between dz w' init ∧ w'.sink = w.sink := by
  unfold ZipWriter.discardLastEntry at hok
  rcases eq_nil_or_concat members with rfl | ⟨init, m, rfl⟩
  · rw [h.files] at hok
    cases hok
  · rw [concat_eq_append] at h ⊢
    have hlast : w.files.getLast? = some m.entry := by
      rw [h.files]
      simp
    simp only [hlast, ite_error_eq_ok_iff] at hok
    cases hok.2.2
    have hstart : m.entry.localFileHeaderOffset = (layout w.seekable init).length :=
      h.placed init m [] rfl
    refine ⟨init, m, rfl, ⟨h.state, ?_, hstart, ?_, ?_, h.placed.of_append⟩, rfl⟩
    · have hfile := h.file
      rw [layout_append] at hfile
      rw [hstart]
      exact hfile.fseeko
    · rw [h.files]
      simp
    · exact fun m' hm' => h.valid m' (mem_append_left _ hm')

/-! ### Runs -/

/-- What the calls say that an entry is to hold. -/
structure Content where
  path : List UInt8
  compress : Bool
  data : List UInt8
deriving DecidableEq, Repr

/-- The entries that are finished, and the one that is not. -/
structure Draft where
  done : List Content
  current : Option Content
deriving DecidableEq, Repr

/-- What a call is to do. -/
def Draft.call (d : Draft) : WriterCall → Draft
  | .startEntry path flags _ =>
    { d with current := some ⟨path, decide (flags &&& kCompress ≠ 0), []⟩ }
  | .startAlignedEntry path flags _ _ =>
    { d with current := some ⟨path, decide (flags &&& kCompress ≠ 0), []⟩ }
  | .writeBytes data _ =>
    { d with current := d.current.map fun c => { c with data := c.data ++ data } }
  | .finishEntry _ => ⟨d.done ++ d.current.toList, none⟩
  | .discardLastEntry => { d with done := d.done.dropLast }

/-- The entries that survive some calls. -/
def survivors (calls : List WriterCall) : List Content :=
  (calls.foldl Draft.call ⟨[], none⟩).done

/-- What a member holds. -/
def Member.content (m : Member) : Content :=
  ⟨m.entry.path, decide (m.entry.compressionMethod = kCompressDeflated), m.data⟩

/-- The invariant of the writer. -/
def Holds (dz : Deflater τ) (w : ZipWriter τ) (d : Draft) : Prop :=
  (∃ members, Between dz w members ∧ d = ⟨members.map Member.content, none⟩) ∨
    ∃ members payload data, Inside dz w members payload data ∧
      d = ⟨members.map Member.content, some ⟨w.currentFileEntry.path,
        decide (w.currentFileEntry.compressionMethod = kCompressDeflated), data⟩⟩

theorem Between.of_call (hin : Inside dz w' members [] []) (hstart : Started w w' path flags) :
    Holds dz w' ⟨members.map Member.content,
      some ⟨path, decide (flags &&& kCompress ≠ 0), []⟩⟩ := by
  refine .inr ⟨members, [], [], hin, ?_⟩
  rw [hstart.path, hstart.method]
  by_cases hcompress : flags &&& kCompress ≠ 0
  · rw [if_pos hcompress, decide_eq_true hcompress, decide_eq_true rfl]
  · rw [if_neg hcompress, decide_eq_false hcompress, decide_eq_false (by decide)]

/-- A call that succeeds keeps the invariant. -/
theorem Holds.call (hlaw : dz.Lawful) {d : Draft} (h : Holds dz w d) {call : WriterCall}
    (hok : w.call dz call = .ok w') : Holds dz w' (d.call call) ∧ w'.sink = w.sink := by
  rcases h with ⟨members, hb, rfl⟩ | ⟨members, payload, data, hin, rfl⟩
  · cases call with
    | startEntry path flags time =>
      obtain ⟨hin, hstart⟩ := hb.start hok
      exact ⟨Between.of_call hin hstart, hstart.sink⟩
    | startAlignedEntry path flags time alignment =>
      obtain ⟨hin, hstart⟩ := hb.startAligned hok
      exact ⟨Between.of_call hin hstart, hstart.sink⟩
    | discardLastEntry =>
      obtain ⟨init, m, rfl, hb', hsink⟩ := hb.discardLastEntry hok
      refine ⟨.inl ⟨init, hb', ?_⟩, hsink⟩
      simp [Draft.call]
    | writeBytes bytes fuel =>
      simp only [ZipWriter.call, ZipWriter.writeBytes, hb.state] at hok
      cases hok
    | finishEntry fuel =>
      simp only [ZipWriter.call, ZipWriter.finishEntry, hb.state] at hok
      cases hok
  · have hstate := hin.opened.state
    cases call with
    | writeBytes bytes fuel =>
      obtain ⟨payload', hin', hsink, hpath, hmethod⟩ := hin.writeBytes hlaw hok
      refine ⟨.inr ⟨members, payload', data ++ bytes, hin', ?_⟩, hsink⟩
      rw [hpath, hmethod]
      rfl
    | finishEntry fuel =>
      obtain ⟨m, hb, hsink, hdata, hpath, hmethod⟩ := hin.finishEntry hlaw hok
      refine ⟨.inl ⟨members ++ [m], hb, ?_⟩, hsink⟩
      simp [Draft.call, Member.content, hdata, hpath, hmethod]
    | startEntry path flags time =>
      simp only [ZipWriter.call, ZipWriter.startEntryWithTime,
        ZipWriter.startAlignedEntryWithTime, hstate] at hok
      split at hok <;> cases hok
    | startAlignedEntry path flags time alignment =>
      simp only [ZipWriter.call, ZipWriter.startAlignedEntryWithTime, hstate] at hok
      cases hok
    | discardLastEntry =>
      simp only [ZipWriter.call, ZipWriter.discardLastEntry, hstate] at hok
      split at hok <;> cases hok

theorem Holds.calls (hlaw : dz.Lawful) {d : Draft} (h : Holds dz w d) {calls : List WriterCall}
    (hok : w.calls dz calls = .ok w') :
    Holds dz w' (calls.foldl Draft.call d) ∧ w'.sink = w.sink := by
  induction calls generalizing w d with
  | nil =>
    cases hok
    exact ⟨h, rfl⟩
  | cons call rest ih =>
    obtain ⟨mid, hmid, hrest⟩ := bind_eq_ok_iff.mp hok
    obtain ⟨hholds, hsink⟩ := h.call hlaw hmid
    obtain ⟨hend, hsink'⟩ := ih hholds hrest
    exact ⟨hend, hsink'.trans hsink⟩

/-- The records of the central directory. -/
theorem writeRecords {pre : List UInt8} (hfile : w.file.Has pre)
    (hoffset : w.currentOffset = pre.length) (files : List FileEntry) :
    (files.foldl writeRecord w).file.Has
        (pre ++ files.flatMap fun e => e.recordBytes w.seekable) ∧
      (files.foldl writeRecord w).currentOffset
        = (pre ++ files.flatMap fun e => e.recordBytes w.seekable).length ∧
      (files.foldl writeRecord w).files = w.files ∧
      (files.foldl writeRecord w).sink = w.sink := by
  induction files generalizing w pre with
  | nil =>
    rw [flatMap_nil, append_nil]
    exact ⟨hfile, hoffset, rfl, rfl⟩
  | cons e rest ih =>
    have hstep : (w.writeRecord e).currentOffset
        = (pre ++ e.recordBytes w.seekable).length := by
      rw [length_append, ← hoffset]
      rfl
    have hrest := ih (hfile.fwrite (e.recordBytes w.seekable)) hstep
    rw [flatMap_cons, ← append_assoc]
    exact hrest

/-- The bytes of a finished archive. -/
theorem Between.finish (h : Between dz w members) {file : List UInt8} (hok : w.finish = .ok file) :
    file = layout w.seekable members ++ directoryBytes w.seekable members ++
      (endRecord members.length (layout w.seekable members).length
        (directoryBytes w.seekable members).length).encode := by
  obtain ⟨hfile, hoffset, hfiles, -⟩ := writeRecords h.file h.offset w.files
  have hdirectory : (w.files.flatMap fun e => e.recordBytes w.seekable)
      = directoryBytes w.seekable members := by
    rw [h.files, flatMap_map]
    rfl
  rw [hdirectory] at hfile hoffset
  unfold ZipWriter.finish at hok
  rw [if_neg (fun hne => hne h.state)] at hok
  simp only at hok
  generalize w.files.foldl writeRecord w = w' at hfile hoffset hfiles hok
  split at hok
  · cases hok
  · cases hok
    have hsize : w'.currentOffset - w.currentOffset
        = (directoryBytes w.seekable members).length := by
      rw [hoffset, h.offset, length_append]
      omega
    rw [hfiles, h.files, length_map, hsize, h.offset]
    generalize endRecord _ _ _ = eocd
    have hend := hfile.fwrite eocd.encode
    -- The position is behind the end record.
    have hpos : w'.currentOffset + EocdRecord.size = (w'.file.fwrite eocd.encode).pos := by
      rw [hend.pos, length_append, hoffset, EocdRecord.length_encode]
    change (w'.file.fwrite _).bytes.take (w'.currentOffset + _) = _
    rw [hpos, hend.take]

/-- An archive is the entries that survive the calls, their records and the end record. -/
theorem writeArchive_eq (hlaw : dz.Lawful) {sink : Sink} {calls : List WriterCall}
    {file : List UInt8} (hok : writeArchive dz sink calls = .ok file) :
    ∃ members, members.map Member.content = survivors calls ∧ (∀ m ∈ members, m.Valid dz) ∧
      Placed sink.isReg members ∧
      file = layout sink.isReg members ++ directoryBytes sink.isReg members ++
        (endRecord members.length (layout sink.isReg members).length
          (directoryBytes sink.isReg members).length).encode := by
  obtain ⟨w, hcalls, hfinish⟩ := bind_eq_ok_iff.mp hok
  have hnew : Holds dz (new sink) ⟨[], none⟩ := .inl ⟨[], between_new dz sink, rfl⟩
  obtain ⟨hholds, hsink⟩ := hnew.calls hlaw hcalls
  have hseek : w.seekable = sink.isReg := congrArg Sink.isReg hsink
  rcases hholds with ⟨members, hb, hdraft⟩ | ⟨members, payload, data, hin, hdraft⟩
  · refine ⟨members, ?_, hb.valid, hseek ▸ hb.placed, hseek ▸ hb.finish hfinish⟩
    rw [survivors, hdraft]
  · -- `Finish` fails in an entry.
    simp only [ZipWriter.finish, hin.opened.state] at hfinish
    cases hfinish

end

end AndroidCore.Libziparchive
