import AndroidCore.Proofs.Libziparchive.Lookup

/-!
# `AndroidCore.Proofs.Libziparchive.Extract`: extracting what was written

A stored entry is copied block by block (`copyLoop_eq`). A compressed entry is read in
blocks, which `inflate` takes as it likes, and its output is written whenever the buffer is
full or the stream ends (`inflateLoop_eq`). `Inverts` is what is assumed of zlib: on a
stream that `deflate` made, `inflate` puts out the data, in whatever pieces, and ends with
the last byte of both.
-/

namespace AndroidCore.Libziparchive

open Lib List DataDescriptor

/-! ### What is assumed of zlib -/

section

variable {σ τ : Type}

/-- A call of `inflate` on a stream that still has `input ++ later` to take and `data` to
put out: it takes some of its input and puts out some of the data. It ends the stream with
the last byte of both; otherwise it makes progress. -/
structure InflateCall (R : σ → List UInt8 → List UInt8 → Prop) (r : ZStep σ)
    (input later data : List UInt8) (room : Nat) : Prop where
  fits : r.output.length ≤ room
  result : ∃ consumed rest, input = consumed ++ r.rest ∧ data = r.output ++ rest ∧
    (r.zerr = .streamEnd ∧ r.rest = [] ∧ later = [] ∧ rest = [] ∨
      r.zerr = .ok ∧ R r.stream (r.rest ++ later) rest ∧
        r.rest.length + rest.length < input.length + data.length)

/-- `inflate` inverts `deflate`. There is always room for output, and input as long as
there is some left. -/
structure Inverts (dz : Deflater τ) (z : Zlib σ) : Prop where
  lawful : dz.Lawful
  inflates : ∃ R : σ → List UInt8 → List UInt8 → Prop,
    (∀ packed data, Packed dz packed data →
      ∃ s, z.inflateInit = some s ∧ R s packed data) ∧
    ∀ s input later data room, R s (input ++ later) data → 0 < room →
      (input = [] → later = []) → InflateCall R (z.inflate s input room) input later data room

end

/-! ### Stored entries -/

section

variable {σ : Type} {z : Zlib σ} {file : List UInt8} {entry : ZipEntry}

theorem memoryWriterAppend_eq {size : Nat} {written buf : List UInt8}
    (h : written.length + buf.length ≤ size) :
    memoryWriterAppend size written buf = some (written ++ buf) := by
  unfold memoryWriterAppend
  rw [if_neg (by omega)]

/-- The bytes behind `count` bytes of the data. -/
theorem drop_data {data tail : List UInt8} (hdrop : file.drop entry.offset = data ++ tail)
    {count : Nat} (hcount : count ≤ data.length) :
    file.drop (entry.offset + count) = data.drop count ++ tail := by
  rw [← drop_drop, hdrop, drop_append_of_le_length hcount]

theorem copyLoop_eq {data tail : List UInt8} (hdrop : file.drop entry.offset = data ++ tail)
    (hoff : entry.offset + data.length ≤ file.length)
    (hlen : entry.uncompressedLength.toNat = data.length) (k : Nat) {count : Nat}
    (hk : data.length - count ≤ k) (hcount : count ≤ data.length) (crc : UInt32) :
    ∃ crc', copyLoop file z (memoryWriterAppend data.length) entry count crc (data.take count)
      = .ok (crc', data) := by
  have hbuf : 0 < kBufSize := by decide
  -- The induction is on a bound of what is left to copy.
  induction k generalizing count crc with
  | zero =>
    refine ⟨crc, ?_⟩
    rw [copyLoop]
    rw [dif_neg (by omega), take_of_length_le (by omega)]
    rfl
  | succ k ih =>
    rw [copyLoop]
    simp only
    by_cases hlt : count < entry.uncompressedLength.toNat
    · rw [dif_pos hlt, hlen]
      generalize hsize : (if data.length - count > kBufSize then kBufSize
        else data.length - count) = blockSize
      have hblock : 0 < blockSize ∧ blockSize ≤ data.length - count := by
        rw [← hsize]
        split <;> omega
      have hread : readAtOffset file blockSize (entry.offset + count)
          = .ok ((data.drop count).take blockSize) := by
        have hbytes := drop_data hdrop hcount
        rw [← take_append_drop blockSize (data.drop count), append_assoc] at hbytes
        refine readAtOffset_eq hbytes (by omega) ?_
        rw [length_take, length_drop]
        omega
      have htake : data.take count ++ (data.drop count).take blockSize
          = data.take (count + blockSize) := take_add.symm
      have happend : memoryWriterAppend data.length (data.take count)
          ((data.drop count).take blockSize) = some _ :=
        memoryWriterAppend_eq (by simp only [length_take]; omega)
      rw [hread]
      simp only
      rw [happend, htake]
      exact ih (by omega) (by omega) _
    · refine ⟨crc, ?_⟩
      rw [dif_neg hlt, take_of_length_le (by omega)]
      rfl

/-! ### Compressed entries -/

/-- The state of `Inflate`: `later` is what is left in the archive, and `rest` is the data
that is still to come. -/
structure Inflating (R : σ → List UInt8 → List UInt8 → Prop) (file : List UInt8)
    (entry : ZipEntry) (data tail later rest : List UInt8) (s : InflateState σ (List UInt8)) :
    Prop where
  stream : R s.stream (s.input ++ later) rest
  le : s.remainingBytes ≤ entry.compressedLength.toNat
  left : file.drop (entry.offset + (entry.compressedLength.toNat - s.remainingBytes))
    = later ++ tail
  remaining : later.length = s.remainingBytes
  data_eq : data = s.writer ++ s.writeBuf ++ rest
  buffer : s.writeBuf.length < kBufSize
  total : s.totalOut = s.writer.length + s.writeBuf.length

variable {R : σ → List UInt8 → List UInt8 → Prop} {data tail later rest : List UInt8}
  {s : InflateState σ (List UInt8)}

/-- Refilling moves bytes from the archive to the input. -/
theorem Inflating.refill_eq (h : Inflating R file entry data tail later rest s)
    (hoff : entry.offset + entry.compressedLength.toNat ≤ file.length) :
    ∃ s' later', refill file entry s = .ok s' ∧
      Inflating R file entry data tail later' rest s' ∧
      s'.input ++ later' = s.input ++ later ∧ (s'.input = [] → later' = []) := by
  have hle := h.le
  have hremaining := h.remaining
  unfold refill
  by_cases hempty : s.input = []
  · rw [if_pos hempty]
    simp only
    generalize hread : (if s.remainingBytes > kBufSize then kBufSize else s.remainingBytes)
      = readSize
    have hsize : readSize ≤ s.remainingBytes ∧ (readSize = 0 → s.remainingBytes = 0) := by
      have hpos : 0 < kBufSize := by decide
      rw [← hread]
      split <;> omega
    have hleft := h.left
    rw [← take_append_drop readSize later, append_assoc] at hleft
    have hlength : (later.take readSize).length = readSize := by
      rw [length_take]
      omega
    rw [readAtOffset_eq hleft (by omega) hlength]
    refine ⟨_, later.drop readSize, rfl, ⟨?_, ?_, ?_, ?_, h.data_eq, h.buffer, h.total⟩,
      ?_, fun hnone => ?_⟩
    · rw [take_append_drop]
      have hstream := h.stream
      rwa [hempty] at hstream
    · simp only
      omega
    · simp only
      refine drop_of_drop_append hleft ?_
      omega
    · simp only [length_drop]
      omega
    · rw [take_append_drop, hempty]
      rfl
    · simp only at hnone
      rw [hnone] at hlength
      have hzero : readSize = 0 := hlength.symm
      refine drop_eq_nil_of_le ?_
      omega
  · rw [if_neg hempty]
    exact ⟨s, later, rfl, h, rfl, fun hnone => absurd hnone hempty⟩

/-- A round of the loop. The data goes to the buffer, and from there to the writer when the
buffer is full or the stream ends. -/
theorem Inflating.round {rest' : List UInt8} (h : Inflating R file entry data tail later rest s)
    {r : ZStep σ} (hr : z.inflate s.stream s.input (kBufSize - s.writeBuf.length) = r)
    (hzerr : r.zerr ≠ .failed) (hfits : r.output.length ≤ kBufSize - s.writeBuf.length)
    (hrest : rest = r.output ++ rest') :
    ∃ writer buf crc, inflateRound z (memoryWriterAppend data.length) s = .ok (r.zerr,
        { s with stream := r.stream, input := r.rest, writeBuf := buf
                 totalOut := writer.length + buf.length, crc := crc, writer := writer }) ∧
      data = writer ++ buf ++ rest' ∧ buf.length < kBufSize ∧ (r.zerr = .streamEnd → buf = []) := by
  have hbuffer := h.buffer
  have hall : data = s.writer ++ (s.writeBuf ++ r.output) ++ rest' := by
    rw [h.data_eq, hrest]
    simp
  have htotal : s.totalOut + r.output.length
      = s.writer.length + (s.writeBuf ++ r.output).length := by
    rw [h.total, length_append, Nat.add_assoc]
  unfold inflateRound
  simp only [hr, if_neg hzerr, htotal]
  by_cases hwrite : (s.writeBuf ++ r.output).length = kBufSize ∨
      r.zerr = .streamEnd ∧ (s.writeBuf ++ r.output).length ≠ 0
  · have hlength := congrArg length hall
    rw [length_append, length_append] at hlength
    rw [if_pos hwrite, memoryWriterAppend_eq (by omega), ← length_append]
    exact ⟨_, [], _, rfl, by rwa [append_nil], by decide, fun _ => rfl⟩
  · rw [if_neg hwrite]
    refine ⟨_, _, _, rfl, hall, ?_, fun hend => ?_⟩
    · have hne : (s.writeBuf ++ r.output).length ≠ kBufSize := fun heq => hwrite (.inl heq)
      rw [length_append] at hne ⊢
      omega
    · by_contra hne
      exact hwrite (.inr ⟨hend, fun hzero => hne (length_eq_zero_iff.mp hzero)⟩)

/-- The loop puts out all of the data. What is left of the stream and of the data gets less
in every round. -/
theorem inflateLoop_eq (hcall : ∀ s input later data room, R s (input ++ later) data → 0 < room →
      (input = [] → later = []) → InflateCall R (z.inflate s input room) input later data room)
    (hoff : entry.offset + entry.compressedLength.toNat ≤ file.length)
    (hlen : entry.uncompressedLength.toNat = data.length) (fuel : Nat)
    (h : Inflating R file entry data tail later rest s)
    (hfuel : (s.input ++ later).length + rest.length < fuel) :
    ∃ crc, inflateLoop file z (memoryWriterAppend data.length) entry fuel s
      = .ok (crc, data) := by
  induction fuel generalizing s later rest with
  | zero => exact absurd hfuel (Nat.not_lt_zero _)
  | succ fuel ih =>
    obtain ⟨s', later', hrefill, h', hbytes, hnone⟩ := h.refill_eq hoff
    have hbuffer := h'.buffer
    have hinflate := hcall s'.stream s'.input later' rest (kBufSize - s'.writeBuf.length)
      h'.stream (by omega) hnone
    obtain ⟨consumed, rest', hinput, hrest, hend | hgoes⟩ := hinflate.result
    · obtain ⟨hzerr, -, hlater, hdone⟩ := hend
      obtain ⟨writer, buf, crc, hround, hdata, -, hbuf⟩ :=
        h'.round rfl (by rw [hzerr]; decide) hinflate.fits hrest
      obtain rfl := hbuf hzerr
      rw [hdone, append_nil, append_nil] at hdata
      have hzero : s'.remainingBytes = 0 := by
        rw [← h'.remaining, hlater]
        rfl
      refine ⟨crc, ?_⟩
      rw [inflateLoop, hrefill, Outcome.ok_bind, hround, Outcome.ok_bind]
      simp only [hzerr]
      rw [if_neg (by decide), if_neg (by rw [hlen, hdata]; simp [hzero]), hdata]
      rfl
    · obtain ⟨hzerr, hstream, hless⟩ := hgoes
      obtain ⟨writer, buf, crc, hround, hdata, hbuf, -⟩ :=
        h'.round rfl (by rw [hzerr]; decide) hinflate.fits hrest
      rw [inflateLoop, hrefill, Outcome.ok_bind, hround]
      simp only [hzerr]
      refine ih ⟨hstream, h'.le, h'.left, h'.remaining, hdata, hbuf, rfl⟩ ?_
      have hlength := congrArg length hbytes
      rw [length_append] at hlength ⊢
      dsimp only
      omega

end

/-! ### Written entries -/

section

variable {σ τ : Type} {dz : Deflater τ} {z : Zlib σ} {seekable : Bool} {members : List Member}
  {file : List UInt8} {m : Member}

theorem length_descriptorBytes (e : FileEntry) : e.descriptorBytes.length = size + 4 := by
  rw [FileEntry.descriptorBytes, length_append, length_bytes32, length_encode, Nat.add_comm]

variable (h : Written dz seekable members file) (hm : m ∈ members)
include h hm

/-- The data of an entry in the archive. -/
theorem Written.drop_payload :
    ∃ tail, file.drop (m.zipEntry seekable).offset = m.payload ++
      ((if m.entry.hasDescriptor seekable then m.entry.descriptorBytes else []) ++ tail) := by
  obtain ⟨tail, hdrop, -⟩ := h.drop_header hm
  refine ⟨tail, ?_⟩
  rw [Member.bytes] at hdrop
  simp only [append_assoc] at hdrop
  refine drop_of_drop_append hdrop ?_
  rw [length_startBytes]
  simp only [Member.zipEntry]
  omega

/-- The data descriptor is the one that was written. -/
theorem Written.validateDataDescriptor_eq (hdescriptor : m.entry.hasDescriptor seekable = true) :
    validateDataDescriptor file (m.zipEntry seekable) = .ok () := by
  obtain ⟨hfront, hcompressed, hstored⟩ := h.payload_lt hm
  have hlen := h.length_eq
  obtain ⟨tail, hdrop⟩ := h.drop_payload hm
  rw [hdescriptor, if_pos rfl] at hdrop
  have hsize : (if (m.zipEntry seekable).method ≠ kCompressStored then
        (m.zipEntry seekable).compressedLength.toNat
      else (m.zipEntry seekable).uncompressedLength.toNat) = m.payload.length := by
    by_cases hmethod : m.entry.compressionMethod = kCompressStored
    · rw [if_neg (fun hne => hne hmethod)]
      exact hstored hmethod
    · have hmethod' : (m.zipEntry seekable).method ≠ kCompressStored := hmethod
      rw [if_pos hmethod']
      exact hcompressed
  have hoffset : (m.zipEntry seekable).offset = m.entry.localFileHeaderOffset +
    LocalFileHeader.size + m.entry.path.length + m.entry.paddingLength.toNat := rfl
  have hbytes := drop_of_drop_append hdrop rfl
  have hsignature : u32 m.entry.descriptorBytes 0 = kOptSignature := by
    rw [FileEntry.descriptorBytes, u32_bytes32]
  have hdecode : decode (m.entry.descriptorBytes.drop 4)
      = ⟨m.entry.crc32, m.entry.compressedSize, m.entry.uncompressedSize⟩ := by
    rw [FileEntry.descriptorBytes, drop_left' (length_bytes32 _),
      ← append_nil (encode _), decode_encode]
  unfold validateDataDescriptor
  simp only
  rw [hsize, readAtOffset_eq hbytes (by omega) (length_descriptorBytes _), Outcome.ok_bind,
    hsignature, if_pos rfl, hdecode]
  rw [if_neg (by rintro (hne | hne | hne) <;> exact hne rfl)]
  rfl

/-- After the data, `ExtractToWriter` checks the data descriptor. -/
theorem Written.extractToWriter_eq {fuel size : Nat} {out : List UInt8}
    (hreturn : ∃ crc, (if (m.zipEntry seekable).method = kCompressStored then
        copyEntryToWriter file z (memoryWriterAppend size) (m.zipEntry seekable) []
      else if (m.zipEntry seekable).method = kCompressDeflated then
        inflateEntryToWriter file z (memoryWriterAppend size) fuel (m.zipEntry seekable) []
      else .error .iterationEnd) = .ok (crc, out)) :
    extractToMemory file z fuel (m.zipEntry seekable) size = .ok out := by
  obtain ⟨crc, hreturn⟩ := hreturn
  unfold extractToMemory extractToWriter
  rw [hreturn]
  have hvalidate : (if (m.zipEntry seekable).hasDataDescriptor = true then
      validateDataDescriptor file (m.zipEntry seekable) else pure () : Reads Unit)
      = .ok () := by
    split
    next hdescriptor => exact h.validateDataDescriptor_eq hm hdescriptor
    next => rfl
  rw [hvalidate]
  rfl

/-- An entry with less than 4 GiB is extracted as it was written. -/
theorem Written.extractToMemory_eq (hz : Inverts dz z) (hdata : m.data.length < 2 ^ 32) :
    ∃ fuel, extractToMemory file z fuel (m.zipEntry seekable) m.data.length = .ok m.data := by
  obtain ⟨hfront, hcompressed, -⟩ := h.payload_lt hm
  have hlen := h.length_eq
  obtain ⟨tail, hdrop⟩ := h.drop_payload hm
  have hvalid := h.valid m hm
  have hoffset : (m.zipEntry seekable).offset = m.entry.localFileHeaderOffset +
    LocalFileHeader.size + m.entry.path.length + m.entry.paddingLength.toNat := rfl
  have huncompressed : (m.zipEntry seekable).uncompressedLength.toNat = m.data.length := by
    change m.entry.uncompressedSize.toNat = _
    rw [hvalid.describes.uncompressed, toNat_ofNat32 hdata]
  rcases hvalid.content with ⟨hmethod, hpayload⟩ | ⟨hmethod, hpacked⟩
  · rw [hpayload] at hdrop hfront
    obtain ⟨crc, hcopy⟩ := copyLoop_eq hdrop (by omega) huncompressed _ le_rfl
      (Nat.zero_le _) 0
    refine ⟨0, h.extractToWriter_eq hm ⟨crc, ?_⟩⟩
    have hmethod' : (m.zipEntry seekable).method = kCompressStored := hmethod
    rw [if_pos hmethod']
    exact hcopy
  · obtain ⟨R, hinit, hcall⟩ := hz.inflates
    obtain ⟨stream, hstream, hR⟩ := hinit _ _ (hpacked hdata)
    have hcompressed' : (m.zipEntry seekable).compressedLength.toNat = m.payload.length :=
      hcompressed
    generalize (if m.entry.hasDescriptor seekable = true then m.entry.descriptorBytes
      else []) ++ tail = behind at hdrop
    have hstart : Inflating R file (m.zipEntry seekable) m.data behind m.payload m.data
        { stream := stream, input := [], writeBuf := []
          remainingBytes := (m.zipEntry seekable).compressedLength.toNat, totalOut := 0
          crc := 0, writer := [] } := by
      have hbuffer : 0 < kBufSize := by decide
      refine ⟨hR, le_rfl, ?_, hcompressed'.symm, rfl, hbuffer, rfl⟩
      rw [Nat.sub_self]
      exact hdrop
    obtain ⟨crc, hloop⟩ := inflateLoop_eq hcall (by omega) huncompressed _ hstart
      (Nat.lt_succ_self _)
    refine ⟨m.payload.length + m.data.length + 1, h.extractToWriter_eq hm ⟨crc, ?_⟩⟩
    have hmethod' : (m.zipEntry seekable).method = kCompressDeflated := hmethod
    rw [if_neg (by rw [hmethod']; decide), if_pos hmethod']
    unfold inflateEntryToWriter
    rw [hstream]
    exact hloop

end

end AndroidCore.Libziparchive
