import AndroidCore.Lib.Bitmap

/-!
# `AndroidCore.Libmemunreachable.Allocator`: the heap of the leak detector

The model of `HeapImpl` and `Chunk` of `Allocator.cpp`. The heap serves small allocations
from chunks of 256 KiB. A chunk holds slots of one size, a power of two, and a bitmap of
the free ones behind a header of one page; the heap keeps the chunks of each size in two
lists, those with a free slot and those without. A larger allocation is a mapping of its
own with a descriptor, which is allocated from the heap itself.

* `Kernel` is the part of the kernel that `mmap` and `munmap` show: the mapped regions and
  the addresses that the next calls return. An address that is not aligned to a chunk or
  not fresh is the fault `notFresh`: the heap relies on the kernel here.
* A chunk is known by its address, and `chunkAt` is the memory of the chunk headers. The
  nodes of the intrusive lists are the lists of these addresses.
* A failed `assert` is the fault `assertion`, and an access through a pointer that leads
  nowhere the fault `undefined`.
-/

namespace AndroidCore.Libmemunreachable

open Lib

def kPageSize : Nat := 4096
def kChunkSize : Nat := 256 * 1024
def kUsableChunkSize : Nat := kChunkSize - kPageSize
def kMaxBucketAllocationSize : Nat := kChunkSize / 4
def kMinBucketAllocationSize : Nat := 8

/-- `const_log2(kMaxBucketAllocationSize) - const_log2(kMinBucketAllocationSize) + 1`. -/
def kNumBuckets : Nat := kMaxBucketAllocationSize.log2 - kMinBucketAllocationSize.log2 + 1

/-- `kUsablePagesPerChunk`. -/
def kUsablePagesPerChunk : Nat := kUsableChunkSize / kPageSize

/-- The words of `free_bitmap_`. -/
def freeBitmapWords : Nat := kUsableChunkSize / kMinBucketAllocationSize / 32

/-- The words of `dirty_pages_`. -/
def dirtyPagesWords : Nat := (kUsablePagesPerChunk + 31) / 32

/-- The offset of `data_` in a chunk: the size of the header. -/
def dataOffset : Nat := 4096

/-- `sizeof(MapAllocation)`. -/
def sizeofMapAllocation : Nat := 24

/-- `size_to_bucket`. -/
def sizeToBucket (size : Nat) : Nat :=
  if size < kMinBucketAllocationSize then kMinBucketAllocationSize
  else (size - 1).log2 + 1 - kMinBucketAllocationSize.log2

/-- `bucket_to_size`. -/
def bucketToSize (bucket : Nat) : Nat := kMinBucketAllocationSize <<< bucket

/-- `(size + kPageSize - 1) & ~(kPageSize - 1)`, in a `size_t`. -/
def roundPage (size : Nat) : Nat := (size + (kPageSize - 1)) % 2 ^ 64 / kPageSize * kPageSize

/-- The ways a call can end without a result. -/
inductive HeapFault where
  | assertion
  | undefined
  | abort
  | notFresh
  deriving DecidableEq, Repr

/-! ### The kernel -/

/-- The mapped regions, as addresses and sizes, and the address that the `n`-th call of
`mmap` returns. -/
structure Kernel where
  addrs : Nat → Nat
  calls : Nat
  mapped : List (Nat × Nat)

namespace Kernel

/-- A region that a call of `mmap` may return: aligned, in the address space, and free. -/
def Fresh (k : Kernel) (addr size : Nat) : Prop :=
  addr % kChunkSize = 0 ∧ addr + size ≤ 2 ^ 64 ∧
    ∀ r ∈ k.mapped, addr + size ≤ r.1 ∨ r.1 + r.2 ≤ addr

instance (k : Kernel) (addr size : Nat) : Decidable (k.Fresh addr size) :=
  inferInstanceAs (Decidable (_ ∧ _ ∧ _))

/-- `MapAligned` with the alignment of a chunk: what is left of the mapping after it is
trimmed; `none` is a null pointer. -/
def mapAligned (k : Kernel) (size : Nat) : Except HeapFault (Option (Nat × Kernel)) :=
  let size := roundPage size
  -- the over-allocation that the alignment needs does not fit into a `size_t`
  if (size + (kChunkSize - kPageSize)) % 2 ^ 64 < size then .ok none
  else if k.Fresh (k.addrs k.calls) size then
    .ok (some (k.addrs k.calls,
      { k with calls := k.calls + 1, mapped := (k.addrs k.calls, size) :: k.mapped }))
  else .error .notFresh

/-- `munmap`. -/
def munmap (k : Kernel) (addr size : Nat) : Kernel :=
  { k with mapped := k.mapped.filter (· ≠ (addr, size)) }

end Kernel

/-! ### A chunk -/

/-- `Chunk`, at the address `addr`. -/
structure Chunk where
  addr : Nat
  bucket : Nat
  allocationSize : Nat
  maxAllocations : Nat
  firstFreeBitmap : Nat
  freeCount : Nat
  freesSincePurge : Nat
  dirtyPages : List (BitVec 32)
  freeBitmap : List (BitVec 32)
  deriving DecidableEq, Repr

namespace Chunk

/-- The constructor: every bit of `free_bitmap_` is set, also those behind the last slot. -/
def new (addr bucket : Nat) : Chunk where
  addr := addr
  bucket := bucket
  allocationSize := bucketToSize bucket
  maxAllocations := kUsableChunkSize / bucketToSize bucket
  firstFreeBitmap := 0
  freeCount := kUsableChunkSize / bucketToSize bucket
  freesSincePurge := 0
  dirtyPages := List.replicate dirtyPagesWords 0
  freeBitmap := List.replicate freeBitmapWords (BitVec.allOnes 32)

/-- `Chunk::Empty`. -/
def empty (c : Chunk) : Bool := c.freeCount = c.maxAllocations

/-- `Chunk::ptr_to_chunk`: the address of the chunk. -/
def ptrToChunk (ptr : Nat) : Nat := ptr / kChunkSize * kChunkSize

/-- `Chunk::is_chunk`. -/
def isChunk (ptr : Nat) : Bool := ptr % kChunkSize ≠ 0

/-- `Chunk::ptr_to_n`. -/
def ptrToN (c : Chunk) (ptr : Nat) : Nat := (ptr - (c.addr + dataOffset)) / c.allocationSize

/-- `Chunk::n_to_ptr`. -/
def nToPtr (c : Chunk) (n : Nat) : Nat := c.addr + dataOffset + n * c.allocationSize % 2 ^ 32

/-- `Chunk::Alloc` without the lists: the slot, and the chunk behind it. -/
def alloc (c : Chunk) : Except HeapFault (Nat × Chunk) :=
  if c.freeCount = 0 then .error .assertion
  else
    match Bitmap.firstWord c.freeBitmap c.firstFreeBitmap with
    | none => .error .assertion
    | some i =>
      let bit := Bitmap.ffs (c.freeBitmap.getD i 0) - 1
      let n := i * 32 + bit
      let page := n * c.allocationSize % 2 ^ 32 / kPageSize
      if ¬ (c.freeBitmap.getD i 0).getLsbD bit ∨ ¬ n < c.maxAllocations ∨
          ¬ page / 32 < c.dirtyPages.length then .error .assertion
      else
        .ok (n, { c with
          freeBitmap := Bitmap.clearAt c.freeBitmap i bit
          dirtyPages := Bitmap.setAt c.dirtyPages (page / 32) (page % 32)
          freeCount := c.freeCount - 1 })

/-- `Chunk::Free` without the lists. -/
def free (c : Chunk) (ptr : Nat) : Except HeapFault Chunk :=
  if ¬ isChunk ptr ∨ ptrToChunk ptr ≠ c.addr then .error .assertion
  else
    let n := c.ptrToN ptr
    let i := n / 32
    let bit := n % 32
    if ¬ i < c.freeBitmap.length ∨ (c.freeBitmap.getD i 0).getLsbD bit then .error .assertion
    else
      .ok { c with
        freeBitmap := Bitmap.setAt c.freeBitmap i bit
        freeCount := c.freeCount + 1
        firstFreeBitmap := if i < c.firstFreeBitmap then i else c.firstFreeBitmap
        -- `Purge` resets the counter
        freesSincePurge :=
          if c.freesSincePurge * c.allocationSize % 2 ^ 32 > 16 * kPageSize then 0
          else c.freesSincePurge + 1 }

end Chunk

/-! ### The heap -/

/-- `MapAllocation`, in the slot `slot`. -/
structure MapAllocation where
  slot : Nat
  ptr : Nat
  size : Nat
  deriving DecidableEq, Repr

/-- `HeapImpl`, with the memory of its chunks and the kernel. -/
structure HeapImpl where
  chunkAt : Nat → Option Chunk
  freeChunks : Nat → List Nat
  fullChunks : Nat → List Nat
  mapAllocationList : List MapAllocation
  kernel : Kernel

namespace HeapImpl

/-- The constructor, on a kernel without a mapping. -/
def new (addrs : Nat → Nat) : HeapImpl where
  chunkAt _ := none
  freeChunks _ := []
  fullChunks _ := []
  mapAllocationList := []
  kernel := ⟨addrs, 0, []⟩

/-- `HeapImpl::Empty`. -/
def empty (h : HeapImpl) : Bool :=
  (List.range kNumBuckets).all fun b =>
    (h.freeChunks b).all (fun a => (h.chunkAt a).all Chunk.empty) &&
      (h.fullChunks b).all fun a => (h.chunkAt a).all Chunk.empty

/-- The header of a chunk is written back. -/
def store (h : HeapImpl) (c : Chunk) : HeapImpl :=
  { h with chunkAt := Function.update h.chunkAt c.addr (some c) }

/-- A list of addresses without one of them. -/
def unlink (lists : Nat → List Nat) (a : Nat) (bucket : Nat) : List Nat :=
  (lists bucket).filter (· ≠ a)

/-- `MoveToFreeList`. The head of the list holds no data, so the search of `MoveToList`
ends at it, and the chunk goes to the front. -/
def moveToFreeList (h : HeapImpl) (c : Chunk) : HeapImpl :=
  { h with
    freeChunks := Function.update (unlink h.freeChunks c.addr) c.bucket
      (c.addr :: unlink h.freeChunks c.addr c.bucket)
    fullChunks := unlink h.fullChunks c.addr }

/-- `MoveToFullList`. -/
def moveToFullList (h : HeapImpl) (c : Chunk) : HeapImpl :=
  { h with
    freeChunks := unlink h.freeChunks c.addr
    fullChunks := Function.update (unlink h.fullChunks c.addr) c.bucket
      (c.addr :: unlink h.fullChunks c.addr c.bucket) }

/-- `Chunk::Alloc` of the chunk at `a`. -/
def chunkAlloc (h : HeapImpl) (a : Nat) : Except HeapFault (Nat × HeapImpl) :=
  match h.chunkAt a with
  | none => .error .undefined
  | some c => do
      let (n, c) ← c.alloc
      let h := h.store c
      return (c.nToPtr n, if c.freeCount = 0 then h.moveToFullList c else h)

/-- `Chunk::Free` of the chunk that a pointer lies in. -/
def chunkFree (h : HeapImpl) (ptr : Nat) : Except HeapFault HeapImpl :=
  match h.chunkAt (Chunk.ptrToChunk ptr) with
  | none => .error .undefined
  | some c => do
      let c ← c.free ptr
      let h := h.store c
      return if c.freeCount = 1 then h.moveToFreeList c else h

/-- A new chunk in front of the free list of a bucket. -/
def newChunk (h : HeapImpl) (bucket : Nat) : Except HeapFault HeapImpl := do
  match ← h.kernel.mapAligned kChunkSize with
  | none => .error .abort
  | some (a, kernel) => return {
      h with
      kernel
      chunkAt := Function.update h.chunkAt a (some (Chunk.new a bucket))
      freeChunks := Function.update h.freeChunks bucket (a :: h.freeChunks bucket) }

/-- `free_chunks_[bucket].next()->data()->Alloc()`. -/
def frontAlloc (h : HeapImpl) (bucket : Nat) : Except HeapFault (Nat × HeapImpl) :=
  match h.freeChunks bucket with
  | a :: _ => h.chunkAlloc a
  | [] => .error .undefined

/-- `AllocLocked` for a size of a bucket. -/
def allocBucket (h : HeapImpl) (size : Nat) : Except HeapFault (Nat × HeapImpl) := do
  let bucket := sizeToBucket size
  let h ← (if h.freeChunks bucket = [] then h.newChunk bucket else pure h)
  h.frontAlloc bucket

/-- `MapAlloc`. The descriptor is small, so that its `AllocLocked` is one from a bucket. -/
def mapAlloc (h : HeapImpl) (size : Nat) : Except HeapFault (Nat × HeapImpl) := do
  let size := roundPage size
  let (slot, h) ← h.allocBucket sizeofMapAllocation
  match ← h.kernel.mapAligned size with
  | none => .error .abort
  | some (ptr, kernel) => return (ptr, {
      h with
      kernel
      mapAllocationList := ⟨slot, ptr, size⟩ :: h.mapAllocationList })

/-- `Alloc`. -/
def alloc (h : HeapImpl) (size : Nat) : Except HeapFault (Nat × HeapImpl) :=
  if size > kMaxBucketAllocationSize then h.mapAlloc size else h.allocBucket size

/-- `MapFree`. The descriptor lies in a chunk, so that its `FreeLocked` is one of a chunk. -/
def mapFree (h : HeapImpl) (ptr : Nat) : Except HeapFault HeapImpl :=
  match h.mapAllocationList.find? (·.ptr = ptr) with
  | none => .error .assertion
  | some d => do
      let h := { h with kernel := h.kernel.munmap d.ptr d.size }
      let h ← (if Chunk.isChunk d.slot then h.chunkFree d.slot else .error .undefined)
      return { h with mapAllocationList := h.mapAllocationList.erase d }

/-- `Free`. -/
def free (h : HeapImpl) (ptr : Nat) : Except HeapFault HeapImpl :=
  if Chunk.isChunk ptr then h.chunkFree ptr else h.mapFree ptr

/-- The bytes that an allocation may use: its slot, or its mapping. -/
def usableSize (h : HeapImpl) (ptr : Nat) : Nat :=
  if Chunk.isChunk ptr then
    (h.chunkAt (Chunk.ptrToChunk ptr)).elim 0 Chunk.allocationSize
  else (h.mapAllocationList.find? (·.ptr = ptr)).elim 0 MapAllocation.size

end HeapImpl

/-! ### Runs -/

/-- A pointer that `Alloc` has returned, and the size that was asked for. -/
structure Allocated where
  ptr : Nat
  size : Nat
  deriving DecidableEq, Repr

/-- A heap and the allocations that are live. -/
structure HeapState where
  heap : HeapImpl
  live : List Allocated

/-- A call on a heap. -/
inductive HeapCall where
  | alloc (size : Nat)
  | free (ptr : Nat)
  deriving DecidableEq, Repr

namespace HeapState

/-- A heap of its own, before the first call. -/
def new (addrs : Nat → Nat) : HeapState := ⟨HeapImpl.new addrs, []⟩

/-- The state after a call. -/
def step (s : HeapState) : HeapCall → Except HeapFault HeapState
  | .alloc size => do
      let (ptr, heap) ← s.heap.alloc size
      return ⟨heap, ⟨ptr, size⟩ :: s.live⟩
  | .free ptr => do
      let heap ← s.heap.free ptr
      return ⟨heap, s.live.filter (·.ptr ≠ ptr)⟩

end HeapState

end AndroidCore.Libmemunreachable
