import AndroidCore.Proofs.Libmemunreachable.Chunk

/-!
# `AndroidCore.Proofs.Libmemunreachable.Heap`: the chunks and the mappings of a heap

Two invariants carry the heap. `ChunksOk` is about the chunks: each one meets `ChunkOk`, and
it is on the list of the full chunks of its bucket if `free_count_` is 0, on that of the
free ones if it is not. `RegionsOk` is about the kernel: the chunks and the mappings of
large allocations are regions that do not overlap.

`UsedSlot` is the set of the slots in use. The calls are described by what they do to it.
`allocBucket` adds a slot that was not in use (`ChunksOk.allocBucket`), and `chunkFree`
takes one away (`ChunksOk.chunkFree`); both leave all other slots as they are.
-/

namespace AndroidCore.Libmemunreachable

open Lib List Option Function Chunk

/-- A slot of a chunk that is not free. -/
def UsedSlot (h : HeapImpl) (p : Nat) : Prop :=
  ∃ a c n, h.chunkAt a = some c ∧ n < c.maxAllocations ∧
    Bitmap.bit c.freeBitmap n = false ∧ p = c.nToPtr n

/-- The chunks of a heap, and the lists they are on. -/
structure ChunksOk (h : HeapImpl) : Prop where
  chunk_ok : ∀ a c, h.chunkAt a = some c → ChunkOk a c
  free_iff : ∀ b a, a ∈ h.freeChunks b ↔
    ∃ c, h.chunkAt a = some c ∧ c.bucket = b ∧ c.freeCount ≠ 0
  full_iff : ∀ b a, a ∈ h.fullChunks b ↔
    ∃ c, h.chunkAt a = some c ∧ c.bucket = b ∧ c.freeCount = 0

/-- The regions of a heap. -/
structure RegionsOk (h : HeapImpl) : Prop where
  mapped_disjoint : h.kernel.mapped.Pairwise fun r r' => r.1 + r.2 ≤ r'.1 ∨ r'.1 + r'.2 ≤ r.1
  chunk_mapped : ∀ a, (h.chunkAt a).isSome → (a, kChunkSize) ∈ h.kernel.mapped
  map_mapped : ∀ d ∈ h.mapAllocationList, (d.ptr, d.size) ∈ h.kernel.mapped
  map_aligned : ∀ d ∈ h.mapAllocationList, d.ptr % kChunkSize = 0 ∧ 0 < d.size
  map_not_chunk : ∀ d ∈ h.mapAllocationList, h.chunkAt d.ptr = none
  map_nodup : (h.mapAllocationList.map MapAllocation.ptr).Nodup

/-- A call that leaves the chunks where they are, with slots of the same size. -/
structure SameRegions (h h' : HeapImpl) : Prop where
  sizes_eq : ∀ a, (h'.chunkAt a).map allocationSize = (h.chunkAt a).map allocationSize
  maps_eq : h'.mapAllocationList = h.mapAllocationList
  kernel_eq : h'.kernel = h.kernel

variable {h' : HeapImpl}

theorem RegionsOk.congr {h : HeapImpl} (hr : RegionsOk h) (hsame : SameRegions h h') :
    RegionsOk h' := by
  have hsome : ∀ a, (h'.chunkAt a).isSome = (h.chunkAt a).isSome := by
    intro a
    rw [← isSome_map, hsame.sizes_eq, isSome_map]
  refine ⟨?_, ?_, ?_, ?_, ?_, ?_⟩
  · rw [hsame.kernel_eq]
    exact hr.mapped_disjoint
  · intro a ha
    rw [hsame.kernel_eq]
    exact hr.chunk_mapped a (hsome a ▸ ha)
  · rw [hsame.kernel_eq, hsame.maps_eq]
    exact hr.map_mapped
  · rw [hsame.maps_eq]
    exact hr.map_aligned
  · rw [hsame.maps_eq]
    intro d hd
    have hnone := hr.map_not_chunk d hd
    rw [← not_isSome_iff_eq_none, hsome, hnone]
    simp
  · rw [hsame.maps_eq]
    exact hr.map_nodup

/-! ### The slots in use -/

namespace ChunksOk

variable {h : HeapImpl} {p : Nat}

theorem isChunk_of_used (hh : ChunksOk h) (hp : UsedSlot h p) : isChunk p = true := by
  obtain ⟨a, c, n, hc, hn, -, rfl⟩ := hp
  exact (hh.chunk_ok a c hc).isChunk_nToPtr hn

/-- The chunk of a used slot is the one that its address tells. -/
theorem chunk_of_used (hh : ChunksOk h) (hp : UsedSlot h p) :
    ∃ c n, h.chunkAt (ptrToChunk p) = some c ∧ n < c.maxAllocations ∧
      Bitmap.bit c.freeBitmap n = false ∧ p = c.nToPtr n := by
  obtain ⟨a, c, n, hc, hn, hbit, rfl⟩ := hp
  refine ⟨c, n, ?_, hn, hbit, rfl⟩
  rw [(hh.chunk_ok a c hc).ptrToChunk_nToPtr hn]
  exact hc

variable {a : Nat} {c c' : Chunk}

/-- The address of a slot tells the chunk and the number. -/
theorem usedSlot_nToPtr (hok : ∀ x d, h.chunkAt x = some d → ChunkOk x d)
    (hc : h.chunkAt a = some c) {n : Nat} (hn : n < c.maxAllocations) :
    UsedSlot h (c.nToPtr n) ↔ Bitmap.bit c.freeBitmap n = false := by
  refine ⟨?_, fun hbit => ⟨a, c, n, hc, hn, hbit, rfl⟩⟩
  rintro ⟨x, d, k, hd, hk, hbit, heq⟩
  have hx : x = a := by
    rw [← (hok x d hd).ptrToChunk_nToPtr hk, ← heq, (hok a c hc).ptrToChunk_nToPtr hn]
  rw [hx] at hd
  cases mem_unique hc hd
  rw [(hok a c hc).nToPtr_inj hn hk heq]
  exact hbit

/-- A chunk whose bitmap changes at the slot `n` only: that slot is used or not, and all
others are as they were. -/
theorem usedSlot_store (hh : ChunksOk h) (hc : h.chunkAt a = some c) (hok : ChunkOk a c')
    (hsame : SameChunk c c') {n : Nat} (hn : n < c.maxAllocations) (used : Bool)
    (hbits : ∀ k, Bitmap.bit c'.freeBitmap k = if k = n then !used else Bitmap.bit c.freeBitmap k)
    (p : Nat) : UsedSlot (h.store c') p ↔ if p = c.nToPtr n then used = true else UsedSlot h p := by
  have hself : (h.store c').chunkAt a = some c' := by
    rw [← hok.addr_eq]
    exact update_self ..
  have hother : ∀ x, x ≠ a → (h.store c').chunkAt x = h.chunkAt x := by
    intro x hx
    exact update_of_ne (by rw [hok.addr_eq]; exact hx) ..
  by_cases hp : p = c.nToPtr n
  · have hstored : ∀ x d, (h.store c').chunkAt x = some d → ChunkOk x d := by
      intro x d hd
      by_cases hx : x = a
      · rw [hx] at hd ⊢
        exact mem_unique hself hd ▸ hok
      · exact hh.chunk_ok x d (hother x hx ▸ hd)
    rw [if_pos hp, hp, ← hsame.nToPtr_eq, usedSlot_nToPtr hstored hself (hsame.max_eq ▸ hn),
      hbits, if_pos rfl, Bool.not_eq_eq_eq_not]
    rfl
  · rw [if_neg hp]
    refine exists_congr fun x => ?_
    by_cases hx : x = a
    · simp only [hx, hself, hc, some.injEq, exists_and_left, exists_eq_left', hsame.max_eq,
        hsame.nToPtr_eq]
      refine exists_congr fun k => ?_
      by_cases hk : k = n
      · simp [hk, hp]
      · rw [hbits, if_neg hk]
    · rw [hother x hx]

/-! ### The lists -/

/-- A chunk is replaced, and it is put on the list where it belongs. -/
theorem replace (hh : ChunksOk h) (hok : ChunkOk a c')
    (hchunk : h'.chunkAt = update h.chunkAt a (some c'))
    (hfree : ∀ b x, x ∈ h'.freeChunks b ↔
      if x = a then c'.bucket = b ∧ c'.freeCount ≠ 0 else x ∈ h.freeChunks b)
    (hfull : ∀ b x, x ∈ h'.fullChunks b ↔
      if x = a then c'.bucket = b ∧ c'.freeCount = 0 else x ∈ h.fullChunks b) : ChunksOk h' := by
  have hself : h'.chunkAt a = some c' := by
    rw [hchunk]
    exact update_self ..
  have hother : ∀ x, x ≠ a → h'.chunkAt x = h.chunkAt x := by
    intro x hx
    rw [hchunk]
    exact update_of_ne hx ..
  refine ⟨?_, ?_, ?_⟩
  · intro x d hd
    by_cases hx : x = a
    · rw [hx, hself, some.injEq] at hd
      rw [hx, ← hd]
      exact hok
    · exact hh.chunk_ok x d (hother x hx ▸ hd)
  · intro b x
    rw [hfree]
    by_cases hx : x = a
    · rw [hx, hself]
      simp
    · rw [if_neg hx, hother x hx]
      exact hh.free_iff b x
  · intro b x
    rw [hfull]
    by_cases hx : x = a
    · rw [hx, hself]
      simp
    · rw [if_neg hx, hother x hx]
      exact hh.full_iff b x

theorem mem_unlink {lists : Nat → List Nat} {b x : Nat} :
    x ∈ HeapImpl.unlink lists a b ↔ x ≠ a ∧ x ∈ lists b := by
  unfold HeapImpl.unlink
  rw [and_comm]
  simp

/-- A chunk that moves to the front of the list of its bucket. -/
theorem mem_relink {lists : Nat → List Nat} {b bucket x : Nat} :
    x ∈ update (HeapImpl.unlink lists a) bucket
        (a :: HeapImpl.unlink lists a bucket) b ↔
      if x = a then bucket = b else x ∈ lists b := by
  by_cases hb : b = bucket
  · subst hb
    rw [update_self, mem_cons, mem_unlink]
    by_cases hx : x = a
    · simp [hx]
    · simp [hx]
  · rw [update_of_ne hb, mem_unlink]
    by_cases hx : x = a
    · simp [Ne.symm hb]
    · simp [hx]

/-- A chunk that stays on its list. -/
theorem store (hh : ChunksOk h) (hc : h.chunkAt a = some c) (hok : ChunkOk a c')
    (hsame : SameChunk c c') (hzero : c.freeCount ≠ 0) (hzero' : c'.freeCount ≠ 0) :
    ChunksOk (h.store c') := by
  refine hh.replace hok (by rw [← hok.addr_eq]; rfl) ?_ ?_
  · intro b x
    show x ∈ h.freeChunks b ↔ _
    by_cases hx : x = a
    · rw [hx, hh.free_iff, hc, hsame.bucket_eq]
      simp [hzero, hzero']
    · rw [if_neg hx]
  · intro b x
    show x ∈ h.fullChunks b ↔ _
    by_cases hx : x = a
    · rw [hx, hh.full_iff, hc]
      simp [hzero, hzero']
    · rw [if_neg hx]

/-- A chunk without a free slot moves to the full list. -/
theorem moveToFullList (hh : ChunksOk h) (hok : ChunkOk a c') (hzero : c'.freeCount = 0) :
    ChunksOk ((h.store c').moveToFullList c') := by
  refine hh.replace hok (by rw [← hok.addr_eq]; rfl) ?_ ?_
  · intro b x
    show x ∈ HeapImpl.unlink h.freeChunks c'.addr b ↔ _
    rw [mem_unlink, hok.addr_eq]
    by_cases hx : x = a
    · simp [hzero]
    · simp [hx]
  · intro b x
    refine mem_relink.trans ?_
    rw [hok.addr_eq]
    show (if x = a then c'.bucket = b else x ∈ h.fullChunks b) ↔ _
    simp [hzero]

/-- A chunk with a free slot moves to the free list. -/
theorem moveToFreeList (hh : ChunksOk h) (hok : ChunkOk a c') (hzero : c'.freeCount ≠ 0) :
    ChunksOk ((h.store c').moveToFreeList c') := by
  refine hh.replace hok (by rw [← hok.addr_eq]; rfl) ?_ ?_
  · intro b x
    refine mem_relink.trans ?_
    rw [hok.addr_eq]
    show (if x = a then c'.bucket = b else x ∈ h.freeChunks b) ↔ _
    simp [hzero]
  · intro b x
    show x ∈ HeapImpl.unlink h.fullChunks c'.addr b ↔ _
    rw [mem_unlink, hok.addr_eq]
    by_cases hx : x = a
    · simp [hzero]
    · simp [hx]

theorem sizes_store (hc : h.chunkAt a = some c) (hok : ChunkOk a c') (hsame : SameChunk c c')
    (x : Nat) :
    ((h.store c').chunkAt x).map allocationSize
      = (h.chunkAt x).map allocationSize := by
  by_cases hx : x = a
  · rw [hx, hc, show (h.store c').chunkAt a = some c' by
      rw [← hok.addr_eq]
      exact update_self ..]
    exact congrArg some hsame.size_eq
  · rw [show (h.store c').chunkAt x = h.chunkAt x from
      update_of_ne (by rw [hok.addr_eq]; exact hx) ..]

/-! ### Slots are taken and given back -/

/-- `Chunk::Alloc` of a chunk with a free slot. -/
theorem chunkAlloc (hh : ChunksOk h) (hc : h.chunkAt a = some c) (hfree : c.freeCount ≠ 0) :
    ∃ p h', h.chunkAlloc a = .ok (p, h') ∧ ChunksOk h' ∧ SameRegions h h' ∧
      ¬ UsedSlot h p ∧ (∀ q, UsedSlot h' q ↔ UsedSlot h q ∨ q = p) ∧
      ptrToChunk p = a := by
  have hcok := hh.chunk_ok a c hc
  obtain ⟨n, c', hrun, hok, hsame, hn, hset, hcount, hbits⟩ := hcok.alloc hfree
  have hptr : c'.nToPtr n = c.nToPtr n := hsame.nToPtr_eq n
  have hnot : ¬ UsedSlot h (c.nToPtr n) := by
    rw [usedSlot_nToPtr hh.chunk_ok hc hn, hset]
    decide
  have hused : ∀ q, UsedSlot (h.store c') q ↔ UsedSlot h q ∨ q = c.nToPtr n := by
    intro q
    rw [hh.usedSlot_store hc hok hsame hn true hbits]
    by_cases hq : q = c.nToPtr n <;> simp [hq]
  have hrun' : h.chunkAlloc a = .ok (c.nToPtr n,
      if c'.freeCount = 0 then (h.store c').moveToFullList c' else h.store c') := by
    unfold HeapImpl.chunkAlloc
    rw [hc]
    simp only [hrun]
    rw [← hptr]
    rfl
  by_cases hzero : c'.freeCount = 0
  · rw [if_pos hzero] at hrun'
    exact ⟨_, _, hrun', hh.moveToFullList hok hzero, ⟨sizes_store hc hok hsame, rfl, rfl⟩, hnot,
      hused, hcok.ptrToChunk_nToPtr hn⟩
  · rw [if_neg hzero] at hrun'
    exact ⟨_, _, hrun', hh.store hc hok hsame hfree hzero, ⟨sizes_store hc hok hsame, rfl, rfl⟩,
      hnot, hused, hcok.ptrToChunk_nToPtr hn⟩

/-- `Chunk::Free` of a used slot. -/
theorem chunkFree (hh : ChunksOk h) (hp : UsedSlot h p) :
    ∃ h', h.chunkFree p = .ok h' ∧ ChunksOk h' ∧ SameRegions h h' ∧
      ∀ q, UsedSlot h' q ↔ UsedSlot h q ∧ q ≠ p := by
  obtain ⟨c, n, hc, hn, hbit, rfl⟩ := hh.chunk_of_used hp
  have hcok := hh.chunk_ok _ c hc
  obtain ⟨c', hrun, hok, hsame, hcount, hbits⟩ := hcok.free hn hbit
  have hused : ∀ q, UsedSlot (h.store c') q ↔ UsedSlot h q ∧ q ≠ c.nToPtr n := by
    intro q
    rw [hh.usedSlot_store hc hok hsame hn false hbits]
    by_cases hq : q = c.nToPtr n <;> simp [hq]
  have hrun' : h.chunkFree (c.nToPtr n) = .ok
      (if c'.freeCount = 1 then (h.store c').moveToFreeList c' else h.store c') := by
    unfold HeapImpl.chunkFree
    rw [hc]
    simp only [hrun]
    rfl
  by_cases hone : c'.freeCount = 1
  · rw [if_pos hone] at hrun'
    exact ⟨_, hrun', hh.moveToFreeList hok (by omega), ⟨sizes_store hc hok hsame, rfl, rfl⟩, hused⟩
  · rw [if_neg hone] at hrun'
    exact ⟨_, hrun', hh.store hc hok hsame (by omega) (by omega),
      ⟨sizes_store hc hok hsame, rfl, rfl⟩, hused⟩

end ChunksOk

/-! ### New regions -/

/-- What `MapAligned` does: the kernel is not honest, there is no room, or a fresh region is
added to the mapped ones. -/
theorem mapAligned_cases (k : Kernel) (size : Nat) :
    k.mapAligned size = .error .notFresh ∨ k.mapAligned size = .ok none ∨
      ∃ addr k', k.mapAligned size = .ok (some (addr, k')) ∧ k.Fresh addr (roundPage size) ∧
        k'.mapped = (addr, roundPage size) :: k.mapped := by
  unfold Kernel.mapAligned
  dsimp only
  split
  · exact .inr (.inl rfl)
  · split
    · rename_i hfresh
      exact .inr (.inr ⟨_, _, rfl, hfresh, rfl⟩)
    · exact .inl rfl

variable {h : HeapImpl}

/-- A fresh region that is not empty is the place of nothing else. -/
theorem RegionsOk.fresh (hr : RegionsOk h) {addr size : Nat} (hfresh : h.kernel.Fresh addr size)
    (hsize : 0 < size) : h.chunkAt addr = none ∧ ∀ d ∈ h.mapAllocationList, d.ptr ≠ addr := by
  obtain ⟨-, -, hfree⟩ := hfresh
  have hchunk : kChunkSize = 262144 := rfl
  constructor
  · rw [← not_isSome_iff_eq_none]
    intro hsome
    have hdisjoint := hfree _ (hr.chunk_mapped addr hsome)
    omega
  · rintro d hd rfl
    have hdisjoint := hfree _ (hr.map_mapped d hd)
    have hpos := (hr.map_aligned d hd).2
    omega

/-- The chunks of `h` are still there, with slots of the same size. -/
def KeepsSizes (h h' : HeapImpl) : Prop :=
  ∀ a c, h.chunkAt a = some c → (h'.chunkAt a).map allocationSize = some c.allocationSize

theorem SameRegions.keepsSizes (hsame : SameRegions h h') : KeepsSizes h h' := by
  intro a c hc
  rw [hsame.sizes_eq, hc]
  rfl

theorem KeepsSizes.trans {h'' : HeapImpl} (h₁ : KeepsSizes h h') (h₂ : KeepsSizes h' h'') :
    KeepsSizes h h'' := by
  intro a c hc
  obtain ⟨c', hc', hsize⟩ := map_eq_some_iff.mp (h₁ a c hc)
  rw [h₂ a c' hc', hsize]

section
variable (hh : ChunksOk h) (hr : RegionsOk h)
include hh hr

/-- A new chunk: the kernel is not honest, or the chunk is in front of its list. -/
theorem ChunksOk.newChunk {b : Nat} (hb : b < kNumBuckets) :
    h.newChunk b = .error .notFresh ∨ ∃ a h', h.newChunk b = .ok h' ∧ ChunksOk h' ∧
      RegionsOk h' ∧ KeepsSizes h h' ∧ (∀ q, UsedSlot h' q ↔ UsedSlot h q) ∧
      h'.mapAllocationList = h.mapAllocationList ∧
      h'.freeChunks b = a :: h.freeChunks b := by
  rcases mapAligned_cases h.kernel kChunkSize with hmap | hmap | ⟨a, k', hmap, hfresh, hmapped⟩
  · refine .inl ?_
    unfold HeapImpl.newChunk
    rw [hmap]
    rfl
  · -- the size of a chunk does not overflow
    unfold Kernel.mapAligned at hmap
    rw [if_neg (by decide)] at hmap
    split at hmap <;> cases hmap
  · obtain ⟨hnone, hnomap⟩ := hr.fresh hfresh (by decide)
    obtain ⟨hok, hbits⟩ := chunkOk_new hfresh.1 hb
    have hmax : (new a b).freeCount ≠ 0 := (hok.max_bounds.1).ne'
    have hbucket : (new a b).bucket = b := rfl
    have hself : update h.chunkAt a (some (new a b)) a = some (new a b) :=
      update_self ..
    refine .inr ⟨a, { h with
        kernel := k'
        chunkAt := update h.chunkAt a (some (new a b))
        freeChunks := update h.freeChunks b (a :: h.freeChunks b) },
      ?_, ?_, ?_, ?_, ?_, rfl, update_self ..⟩
    · unfold HeapImpl.newChunk
      rw [hmap]
      rfl
    · refine hh.replace hok rfl ?_ ?_
      · intro b' x
        by_cases hb' : b' = b
        · subst hb'
          show x ∈ update h.freeChunks b' (a :: h.freeChunks b') b' ↔ _
          by_cases hx : x = a
          · simp [hx, hmax, hbucket]
          · simp [hx]
        · show x ∈ update h.freeChunks b (a :: h.freeChunks b) b' ↔ _
          rw [update_of_ne hb']
          by_cases hx : x = a
          · rw [hx, hh.free_iff, hnone]
            simp [hbucket, Ne.symm hb']
          · rw [if_neg hx]
      · intro b' x
        show x ∈ h.fullChunks b' ↔ _
        by_cases hx : x = a
        · rw [hx, hh.full_iff, hnone]
          simp [hmax]
        · rw [if_neg hx]
    · refine ⟨?_, ?_, ?_, hr.map_aligned, ?_, hr.map_nodup⟩
      · show k'.mapped.Pairwise _
        rw [hmapped]
        exact pairwise_cons.mpr ⟨fun r => hfresh.2.2 r, hr.mapped_disjoint⟩
      · intro x hx
        show (x, kChunkSize) ∈ k'.mapped
        rw [hmapped]
        by_cases hxa : x = a
        · rw [hxa]
          exact mem_cons_self
        · refine mem_cons_of_mem _ (hr.chunk_mapped x ?_)
          rw [← hx]
          exact congrArg isSome (update_of_ne hxa ..).symm
      · intro d hd
        show (d.ptr, d.size) ∈ k'.mapped
        rw [hmapped]
        exact mem_cons_of_mem _ (hr.map_mapped d hd)
      · intro d hd
        show update h.chunkAt a _ d.ptr = none
        rw [update_of_ne (hnomap d hd)]
        exact hr.map_not_chunk d hd
    · intro x c hc
      have hxa : x ≠ a := by
        rintro rfl
        rw [hnone] at hc
        cases hc
      show (update h.chunkAt a _ x).map _ = _
      rw [update_of_ne hxa, hc]
      rfl
    · intro q
      constructor
      · rintro ⟨x, d, n, hd, hn, hbit, rfl⟩
        by_cases hxa : x = a
        · rw [hxa] at hd
          rw [← some.inj (hself.symm.trans hd)] at hn hbit
          rw [hbits n hn] at hbit
          cases hbit
        · exact ⟨x, d, n, (update_of_ne hxa ..).symm.trans hd, hn, hbit, rfl⟩
      · rintro ⟨x, d, n, hd, hn, hbit, rfl⟩
        have hxa : x ≠ a := by
          rintro rfl
          rw [hnone] at hd
          cases hd
        exact ⟨x, d, n, (update_of_ne hxa ..).trans hd, hn, hbit, rfl⟩

/-- A slot of at least `size` bytes that was not in use is in use now. -/
structure TookSlot (h : HeapImpl) (size p : Nat) (h' : HeapImpl) : Prop where
  chunks : ChunksOk h'
  regions : RegionsOk h'
  keeps : KeepsSizes h h'
  unused : ¬ UsedSlot h p
  used_iff : ∀ q, UsedSlot h' q ↔ UsedSlot h q ∨ q = p
  maps_eq : h'.mapAllocationList = h.mapAllocationList
  large : ∃ c, h'.chunkAt (ptrToChunk p) = some c ∧ size ≤ c.allocationSize

/-- From a chunk on the free list on, the allocation is that of the chunk. -/
theorem ChunksOk.frontAlloc {size a : Nat} {rest : List Nat}
    (hsize : size ≤ kMaxBucketAllocationSize)
    (hlist : h.freeChunks (sizeToBucket size) = a :: rest) :
    ∃ p h', h.frontAlloc (sizeToBucket size) = .ok (p, h') ∧ TookSlot h size p h' := by
  obtain ⟨c, hc, hbucket, hfree⟩ := (hh.free_iff (sizeToBucket size) a).mp (hlist ▸ mem_cons_self)
  obtain ⟨p, h', hrun, hh', hsame, hnot, hused, hptr⟩ := hh.chunkAlloc hc hfree
  obtain ⟨c', hc', hcsize⟩ := map_eq_some_iff.mp (hsame.keepsSizes a c hc)
  refine ⟨p, h', ?_, hh', hr.congr hsame, hsame.keepsSizes, hnot, hused, hsame.maps_eq,
    c', hptr ▸ hc', ?_⟩
  · unfold HeapImpl.frontAlloc
    rw [hlist]
    exact hrun
  · rw [hcsize, (hh.chunk_ok a c hc).size_eq, hbucket]
    exact (sizeToBucket_spec hsize).2

/-- An allocation from a bucket: the kernel is not honest, or a slot is taken. -/
theorem ChunksOk.allocBucket {size : Nat} (hsize : size ≤ kMaxBucketAllocationSize) :
    h.allocBucket size = .error .notFresh ∨
      ∃ p h', h.allocBucket size = .ok (p, h') ∧ TookSlot h size p h' := by
  unfold HeapImpl.allocBucket
  dsimp only
  by_cases hempty : h.freeChunks (sizeToBucket size) = []
  · rw [if_pos hempty]
    rcases hh.newChunk hr (sizeToBucket_spec hsize).1 with
      hnew | ⟨a, g, hnew, hg, hgr, hkeeps, hused, hmaps, hlist⟩
    · rw [hnew]
      exact .inl rfl
    · obtain ⟨p, g', hrun, htook⟩ := hg.frontAlloc hgr hsize hlist
      rw [hnew]
      refine .inr ⟨p, g', hrun, { htook with
        keeps := hkeeps.trans htook.keeps
        unused := (hused p).not.mp htook.unused
        used_iff := fun q => (htook.used_iff q).trans (or_congr_left (hused q))
        maps_eq := htook.maps_eq.trans hmaps }⟩
  · rw [if_neg hempty]
    obtain ⟨a, rest, hlist⟩ := exists_cons_of_ne_nil hempty
    exact .inr (hh.frontAlloc hr hsize hlist)

end

end AndroidCore.Libmemunreachable
