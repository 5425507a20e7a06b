import AndroidCore.Libmemunreachable.Allocator

/-!
# `AndroidCore.Proofs.Libmemunreachable.Chunk`: the slots of a chunk

`ChunkOk` is the invariant of a chunk: the size of its slots is that of its bucket, the
slots lie behind the header and inside of the chunk, and `free_count_` counts the free ones
among them. The bitmap has more bits than there are slots, and all of them are set at
first. The search of `Chunk::Alloc` still ends at a slot: it finds the lowest set bit, and
while `free_count_` is not 0 there is a set bit below `max_allocations_`.

`ChunkOk.alloc` and `ChunkOk.free` say what the two calls do: no assertion fails, one bit
changes, and the invariant is kept.
-/

namespace AndroidCore.Libmemunreachable

open Lib List Chunk Bitmap

/-! ### The buckets -/

theorem bucketToSize_eq (b : Nat) : bucketToSize b = 8 * 2 ^ b := Nat.shiftLeft_eq 8 b

/-- The bucket of a size has slots that are large enough. -/
theorem sizeToBucket_spec {size : Nat} (h : size ≤ kMaxBucketAllocationSize) :
    sizeToBucket size < kNumBuckets ∧ size ≤ bucketToSize (sizeToBucket size) := by
  have hmax : kMaxBucketAllocationSize = 2 ^ 16 := by decide
  have hbuckets : kNumBuckets = 14 := by decide
  have hmin : kMinBucketAllocationSize = 8 := rfl
  have hlog : kMinBucketAllocationSize.log2 = 3 := by decide
  unfold sizeToBucket
  rw [hlog]
  split
  · -- a size below 8 is served from the bucket with the index 8
    rw [hmin, bucketToSize_eq]
    omega
  · have hne : size - 1 ≠ 0 := by omega
    have hlo : 2 ≤ (size - 1).log2 := (Nat.le_log2 hne).mpr (by omega)
    have hhi : (size - 1).log2 < 16 := (Nat.log2_lt hne).mpr (by omega)
    have hpow : size - 1 < 2 ^ ((size - 1).log2 + 1) := Nat.lt_log2_self
    have hsplit : 2 ^ ((size - 1).log2 + 1) = 8 * 2 ^ ((size - 1).log2 + 1 - 3) := by
      rw [show 8 = 2 ^ 3 from rfl, ← Nat.pow_add]
      congr 1
      omega
    rw [bucketToSize_eq]
    omega

/-! ### The invariant of a chunk -/

/-- What holds for the chunk at the address `a` between two calls. -/
structure ChunkOk (a : Nat) (c : Chunk) : Prop where
  addr_eq : c.addr = a
  aligned : a % kChunkSize = 0
  bucket_lt : c.bucket < kNumBuckets
  size_eq : c.allocationSize = bucketToSize c.bucket
  max_eq : c.maxAllocations = kUsableChunkSize / c.allocationSize
  first_eq : c.firstFreeBitmap = 0
  bitmap_length : c.freeBitmap.length = freeBitmapWords
  dirty_length : c.dirtyPages.length = dirtyPagesWords
  count_eq : c.freeCount = countBelow c.freeBitmap c.maxAllocations

/-- The parts of a chunk that stay as they are. -/
structure SameChunk (c c' : Chunk) : Prop where
  addr_eq : c'.addr = c.addr
  bucket_eq : c'.bucket = c.bucket
  size_eq : c'.allocationSize = c.allocationSize
  max_eq : c'.maxAllocations = c.maxAllocations

theorem SameChunk.nToPtr_eq {c c' : Chunk} (h : SameChunk c c') (n : Nat) :
    c'.nToPtr n = c.nToPtr n := by
  unfold nToPtr
  rw [h.addr_eq, h.size_eq]

namespace ChunkOk

variable {a : Nat} {c : Chunk}

theorem size_bounds (h : ChunkOk a c) : 8 ≤ c.allocationSize ∧ c.allocationSize ≤ 2 ^ 16 := by
  have hbucket : c.bucket ≤ 13 := Nat.le_of_lt_succ h.bucket_lt
  have hlo : 1 ≤ 2 ^ c.bucket := Nat.one_le_two_pow
  have hhi : 2 ^ c.bucket ≤ 2 ^ 13 := Nat.pow_le_pow_right (by decide) hbucket
  rw [h.size_eq, bucketToSize_eq]
  omega

variable {n : Nat}

section

variable (h : ChunkOk a c) (hn : n < c.maxAllocations)
include h hn

/-- The slots end inside of the chunk. -/
theorem slot_le : n * c.allocationSize + c.allocationSize ≤ kUsableChunkSize := by
  rw [← Nat.succ_mul]
  calc n.succ * c.allocationSize ≤ c.maxAllocations * c.allocationSize :=
        Nat.mul_le_mul_right _ hn
    _ ≤ kUsableChunkSize := by
        rw [h.max_eq]
        exact Nat.div_mul_le_self ..

omit hn in
theorem max_bounds : 0 < c.maxAllocations ∧ c.maxAllocations ≤ 32256 := by
  obtain ⟨hlo, hhi⟩ := h.size_bounds
  have hsize : kUsableChunkSize = 258048 := rfl
  rw [h.max_eq, hsize]
  constructor
  · exact Nat.div_pos (by omega) (by omega)
  · calc 258048 / c.allocationSize ≤ 258048 / 8 := Nat.div_le_div_left hlo (by decide)
      _ = 32256 := by decide

theorem nToPtr_eq : c.nToPtr n = a + dataOffset + n * c.allocationSize := by
  have hle := h.slot_le hn
  have hsize : kUsableChunkSize = 258048 := rfl
  unfold nToPtr
  rw [h.addr_eq, Nat.mod_eq_of_lt (by omega)]

theorem ptrToChunk_nToPtr : ptrToChunk (c.nToPtr n) = a := by
  have hle := h.slot_le hn
  have hpos := h.size_bounds.1
  have haligned := h.aligned
  have hsize : kUsableChunkSize = 258048 := rfl
  have hchunk : kChunkSize = 262144 := rfl
  have hdata : dataOffset = 4096 := rfl
  rw [h.nToPtr_eq hn]
  unfold ptrToChunk
  rw [hchunk] at haligned ⊢
  omega

theorem isChunk_nToPtr : isChunk (c.nToPtr n) = true := by
  have hle := h.slot_le hn
  have hpos := h.size_bounds.1
  have haligned := h.aligned
  have hsize : kUsableChunkSize = 258048 := rfl
  have hchunk : kChunkSize = 262144 := rfl
  have hdata : dataOffset = 4096 := rfl
  rw [h.nToPtr_eq hn]
  unfold isChunk
  rw [hchunk] at haligned ⊢
  exact decide_eq_true (by omega)

theorem ptrToN_nToPtr : c.ptrToN (c.nToPtr n) = n := by
  have hpos := h.size_bounds.1
  unfold ptrToN
  rw [h.nToPtr_eq hn, h.addr_eq, Nat.add_sub_cancel_left]
  exact Nat.mul_div_cancel _ (by omega)

/-- Different slots have different addresses. -/
theorem nToPtr_inj {n' : Nat} (hn' : n' < c.maxAllocations) (heq : c.nToPtr n = c.nToPtr n') :
    n = n' := by
  rw [← h.ptrToN_nToPtr hn, heq, h.ptrToN_nToPtr hn']

end

end ChunkOk

/-! ### The calls -/

variable {a : Nat}

/-- A new chunk: all of its slots are free. -/
theorem chunkOk_new {b : Nat} (ha : a % kChunkSize = 0) (hb : b < kNumBuckets) :
    ChunkOk a (new a b) ∧
      ∀ n < (new a b).maxAllocations, bit (new a b).freeBitmap n = true := by
  have hsize : 8 ≤ bucketToSize b := by
    have hpow : 1 ≤ 2 ^ b := Nat.one_le_two_pow
    rw [bucketToSize_eq]
    omega
  have hmax : kUsableChunkSize / bucketToSize b ≤ 32256 :=
    calc kUsableChunkSize / bucketToSize b ≤ kUsableChunkSize / 8 :=
          Nat.div_le_div_left hsize (by decide)
      _ = 32256 := by decide
  have hwords : freeBitmapWords = 1008 := by decide
  have hbits : ∀ n < kUsableChunkSize / bucketToSize b,
      bit (replicate freeBitmapWords (BitVec.allOnes 32)) n = true := by
    intro n hn
    have hword : (replicate freeBitmapWords (BitVec.allOnes 32)).getD (n / 32) 0
        = BitVec.allOnes 32 := by
      rw [getD_eq_getElem?_getD, getElem?_replicate, if_pos (by omega)]
      rfl
    unfold bit
    rw [hword, BitVec.getLsbD_allOnes]
    exact decide_eq_true (Nat.mod_lt _ (by decide))
  refine ⟨⟨rfl, ha, hb, rfl, rfl, rfl, length_replicate .., length_replicate .., ?_⟩, hbits⟩
  exact (countBelow_eq_iff.mpr hbits).symm

/-- `Chunk::Alloc` of a chunk with a free slot: it takes one. -/
theorem ChunkOk.alloc {c : Chunk} (h : ChunkOk a c) (hfree : c.freeCount ≠ 0) :
    ∃ n c', c.alloc = .ok (n, c') ∧ ChunkOk a c' ∧ SameChunk c c' ∧ n < c.maxAllocations ∧
      bit c.freeBitmap n = true ∧ c.freeCount = c'.freeCount + 1 ∧
      ∀ k, bit c'.freeBitmap k = if k = n then false else bit c.freeBitmap k := by
  -- a set bit below `max_allocations_`, and the lowest one, which the search finds
  obtain ⟨k, hk, hset⟩ := countBelow_pos_iff.mp
    (show 0 < countBelow c.freeBitmap c.maxAllocations by
      rw [← h.count_eq]
      omega)
  obtain ⟨i, b, hword, hi, hffs, hb, hbit, hle⟩ := firstWord_spec hset
  have hn : i * 32 + b < c.maxAllocations := by omega
  have hslot := h.slot_le hn
  have hsize : kUsableChunkSize = 258048 := rfl
  have hpage : kPageSize = 4096 := rfl
  have hdirty : c.dirtyPages.length = 2 := h.dirty_length
  have hlsb : (c.freeBitmap.getD i 0).getLsbD b = true := by
    have hbit' := hbit
    unfold bit at hbit'
    rw [show (i * 32 + b) / 32 = i by omega, show (i * 32 + b) % 32 = b by omega] at hbit'
    exact hbit'
  have hasserts : ¬ (¬ (c.freeBitmap.getD i 0).getLsbD b = true ∨
      ¬ i * 32 + b < c.maxAllocations ∨
      ¬ (i * 32 + b) * c.allocationSize % 2 ^ 32 / kPageSize / 32 < c.dirtyPages.length) := by
    rw [hpage]
    rintro (hbad | hbad | hbad)
    · exact hbad hlsb
    · exact hbad hn
    · omega
  have hcount := countBelow_clearAt hi hb hbit hn
  have hfc := h.count_eq
  refine ⟨i * 32 + b, { c with
      freeBitmap := clearAt c.freeBitmap i b
      dirtyPages := setAt c.dirtyPages
        ((i * 32 + b) * c.allocationSize % 2 ^ 32 / kPageSize / 32)
        ((i * 32 + b) * c.allocationSize % 2 ^ 32 / kPageSize % 32)
      freeCount := c.freeCount - 1 }, ?_, ?_, ⟨rfl, rfl, rfl, rfl⟩, hn, hbit, ?_, ?_⟩
  · unfold Chunk.alloc
    rw [if_neg hfree, h.first_eq, hword]
    simp only [hffs, Nat.add_sub_cancel]
    rw [if_neg hasserts]
  · refine ⟨h.addr_eq, h.aligned, h.bucket_lt, h.size_eq, h.max_eq, h.first_eq, ?_, ?_, ?_⟩
    · exact length_set.trans h.bitmap_length
    · exact length_set.trans h.dirty_length
    · show c.freeCount - 1 = countBelow (clearAt c.freeBitmap i b) c.maxAllocations
      omega
  · show c.freeCount = c.freeCount - 1 + 1
    omega
  · exact bit_clearAt hi hb

/-- `Chunk::Free` of a slot that is not free. -/
theorem ChunkOk.free {c : Chunk} (h : ChunkOk a c) {n : Nat} (hn : n < c.maxAllocations)
    (hused : bit c.freeBitmap n = false) :
    ∃ c', c.free (c.nToPtr n) = .ok c' ∧ ChunkOk a c' ∧ SameChunk c c' ∧
      c'.freeCount = c.freeCount + 1 ∧
      ∀ k, bit c'.freeBitmap k = if k = n then true else bit c.freeBitmap k := by
  have hmax := h.max_bounds.2
  have hwords : c.freeBitmap.length = 1008 := h.bitmap_length
  have hi : n / 32 < c.freeBitmap.length := by omega
  have hb : n % 32 < 32 := Nat.mod_lt _ (by decide)
  have hjoin : n / 32 * 32 + n % 32 = n := by omega
  have hpointer : ¬ (¬ isChunk (c.nToPtr n) = true ∨
      ptrToChunk (c.nToPtr n) ≠ c.addr) := by
    rw [h.isChunk_nToPtr hn, h.ptrToChunk_nToPtr hn, h.addr_eq]
    simp
  have hslot : ¬ (¬ n / 32 < c.freeBitmap.length ∨
      (c.freeBitmap.getD (n / 32) 0).getLsbD (n % 32) = true) := by
    rintro (hbad | hbad)
    · exact hbad hi
    · exact absurd hbad (Bool.eq_false_iff.mp hused)
  have hbits := bit_setAt hi hb
  have hcount := countBelow_setAt hi hb (hjoin.symm ▸ hused) (hjoin.symm ▸ hn)
  have hrun : c.free (c.nToPtr n) = .ok { c with
      freeBitmap := setAt c.freeBitmap (n / 32) (n % 32)
      freeCount := c.freeCount + 1
      firstFreeBitmap := if n / 32 < c.firstFreeBitmap then n / 32 else c.firstFreeBitmap
      freesSincePurge :=
        if c.freesSincePurge * c.allocationSize % 2 ^ 32 > 16 * kPageSize then 0
        else c.freesSincePurge + 1 } := by
    unfold Chunk.free
    rw [if_neg hpointer]
    simp only [h.ptrToN_nToPtr hn]
    rw [if_neg hslot]
  refine ⟨_, hrun, ?_, ⟨rfl, rfl, rfl, rfl⟩, rfl, ?_⟩
  · refine ⟨h.addr_eq, h.aligned, h.bucket_lt, h.size_eq, h.max_eq, ?_, ?_, h.dirty_length, ?_⟩
    · -- `first_free_bitmap_` never leaves 0
      show (if n / 32 < c.firstFreeBitmap then n / 32 else c.firstFreeBitmap) = 0
      rw [h.first_eq, if_neg (Nat.not_lt_zero _)]
    · exact length_set.trans h.bitmap_length
    · show c.freeCount + 1 = countBelow _ c.maxAllocations
      rw [hcount, h.count_eq]
  · intro k
    rw [hbits, hjoin]

end AndroidCore.Libmemunreachable
