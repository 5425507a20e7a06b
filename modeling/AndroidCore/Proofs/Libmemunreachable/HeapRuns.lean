import AndroidCore.Lib.ExceptBind
import AndroidCore.Proofs.Libmemunreachable.Heap
import Mathlib.Data.List.Pairwise

/-!
# `AndroidCore.Proofs.Libmemunreachable.HeapRuns`: the invariant of the heap over whole runs

`StateOk` joins the invariants of the heap with the allocations that are live. Every slot in
use belongs to exactly one owner, a live allocation or the descriptor of a mapping
(`owners`), and the mappings are the live allocations that lie in no chunk. `StateOk.step`
keeps it over every call, one lemma for each kind: a slot taken or given back, a mapping
made or removed.

`heap_invariant` reads the result off it. In every run no assertion fails, the counters and
the lists of the chunks are right, live allocations are as large as they were asked for and
do not overlap, and the heap is empty exactly if nothing is live. A run must not ask for
more than `2 ^ 64 - 4096` bytes at once. The rounding of a larger size wraps to 0, and
`Alloc` returns a mapping of no bytes (`largeAlloc_too_small`).
-/

namespace AndroidCore.Libmemunreachable

open Lib List Chunk HeapState

/-! ### The properties of a state -/

/-- The pointers that are live. -/
def HeapState.pointers (s : HeapState) : List Nat := s.live.map Allocated.ptr

/-- What the heap promises: the counters and lists of the chunks, allocations that are large
enough and do not overlap, and `Empty`. -/
structure HeapState.WellFormed (s : HeapState) : Prop where
  free_count : ∀ a c, s.heap.chunkAt a = some c →
    c.freeCount = Bitmap.countBelow c.freeBitmap c.maxAllocations
  full_iff : ∀ a c b, s.heap.chunkAt a = some c →
    (a ∈ s.heap.fullChunks b ↔ c.bucket = b ∧ c.freeCount = 0)
  large_enough : ∀ x ∈ s.live, x.size ≤ s.heap.usableSize x.ptr
  disjoint : s.live.Pairwise fun x y => x.ptr + s.heap.usableSize x.ptr ≤ y.ptr ∨
    y.ptr + s.heap.usableSize y.ptr ≤ x.ptr
  empty_iff : s.heap.empty = true ↔ s.live = []

/-- `Free` is only called on live pointers. -/
def HeapCall.Legal (s : HeapState) : HeapCall → Prop
  | .alloc _ => True
  | .free ptr => ptr ∈ s.pointers

/-- The rounding of the size to pages does not wrap. -/
def HeapCall.InBounds : HeapCall → Prop
  | .alloc size => size ≤ 2 ^ 64 - kPageSize
  | .free _ => True

/-- The states of the runs whose calls are all legal and in bounds; `addrs` are the addresses
that the kernel chooses. -/
inductive HeapState.Reachable (addrs : Nat → Nat) : HeapState → Prop where
  | new : Reachable addrs (HeapState.new addrs)
  | step {s s' : HeapState} {call : HeapCall} (hs : Reachable addrs s) (hlegal : call.Legal s)
      (hbounds : call.InBounds) (hstep : s.step call = .ok s') : Reachable addrs s'

/-! ### The invariant -/

/-- The owners of the slots in use: live allocations, and descriptors of mappings. -/
def HeapState.owners (s : HeapState) : List Nat :=
  s.pointers.filter isChunk ++ s.heap.mapAllocationList.map MapAllocation.slot

/-- The invariant of a run. -/
structure StateOk (s : HeapState) : Prop where
  chunks : ChunksOk s.heap
  regions : RegionsOk s.heap
  pointers_nodup : s.pointers.Nodup
  owners_nodup : s.owners.Nodup
  used_iff : ∀ p, UsedSlot s.heap p ↔ p ∈ s.owners
  small : ∀ x ∈ s.live, isChunk x.ptr = true →
    ∃ c, s.heap.chunkAt (ptrToChunk x.ptr) = some c ∧ x.size ≤ c.allocationSize
  large : ∀ x ∈ s.live, isChunk x.ptr = false →
    ∃ d ∈ s.heap.mapAllocationList, d.ptr = x.ptr ∧ x.size ≤ d.size
  maps_live : ∀ d ∈ s.heap.mapAllocationList, d.ptr ∈ s.pointers

theorem stateOk_new (addrs : Nat → Nat) : StateOk (HeapState.new addrs) where
  chunks := ⟨nofun, by simp [HeapState.new, HeapImpl.new], by simp [HeapState.new, HeapImpl.new]⟩
  regions := ⟨List.Pairwise.nil, nofun, nofun, nofun, nofun, nodup_nil⟩
  pointers_nodup := nodup_nil
  owners_nodup := nodup_nil
  used_iff := by
    intro p
    refine ⟨?_, nofun⟩
    rintro ⟨a, c, n, hc, -⟩
    cases hc
  small := nofun
  large := nofun
  maps_live := nofun

variable {s : HeapState}

theorem mem_owners_iff {p : Nat} :
    p ∈ s.owners ↔ (p ∈ s.pointers ∧ isChunk p = true) ∨
      ∃ d ∈ s.heap.mapAllocationList, d.slot = p := by
  unfold owners
  rw [mem_append, mem_filter, mem_map]

/-- The chunk of a live allocation keeps the size of its slots. -/
theorem StateOk.small_keeps (hs : StateOk s) {h' : HeapImpl} (hkeeps : KeepsSizes s.heap h')
    {x : Allocated} (hx : x ∈ s.live) (hchunk : isChunk x.ptr = true) :
    ∃ c, h'.chunkAt (ptrToChunk x.ptr) = some c ∧ x.size ≤ c.allocationSize := by
  obtain ⟨c, hc, hsize⟩ := hs.small x hx hchunk
  obtain ⟨c', hc', hcsize⟩ := Option.map_eq_some_iff.mp (hkeeps _ c hc)
  exact ⟨c', hc', hcsize ▸ hsize⟩

/-! ### `Alloc` -/

variable {size : Nat}

/-- An allocation from a bucket. -/
theorem StateOk.allocBucket (hs : StateOk s) (hsize : size ≤ kMaxBucketAllocationSize) :
    s.heap.allocBucket size = .error .notFresh ∨
      ∃ p h', s.heap.allocBucket size = .ok (p, h') ∧ p ∉ s.pointers ∧
        StateOk ⟨h', ⟨p, size⟩ :: s.live⟩ := by
  rcases hs.chunks.allocBucket hs.regions hsize with
    herr | ⟨p, h', hrun, ⟨hchunks, hregions, hkeeps, hnot, hused, hmaps, hlarge⟩⟩
  · exact .inl herr
  have hchunk : isChunk p = true :=
    hchunks.isChunk_of_used ((hused p).mpr (.inr rfl))
  have hnew : p ∉ s.owners := by
    rw [← hs.used_iff]
    exact hnot
  have hpointer : p ∉ s.pointers := fun hmem => hnew (mem_owners_iff.mpr (.inl ⟨hmem, hchunk⟩))
  have howners : owners ⟨h', ⟨p, size⟩ :: s.live⟩ = p :: s.owners := by
    show (p :: s.pointers).filter isChunk ++ h'.mapAllocationList.map _ = _
    rw [filter_cons_of_pos hchunk, hmaps]
    rfl
  refine .inr ⟨p, h', hrun, hpointer, hchunks, hregions, ?_, ?_, ?_, ?_, ?_, ?_⟩
  · exact nodup_cons.mpr ⟨hpointer, hs.pointers_nodup⟩
  · rw [howners]
    exact nodup_cons.mpr ⟨hnew, hs.owners_nodup⟩
  · intro q
    rw [howners, hused, hs.used_iff, mem_cons, or_comm]
  · intro x hx hxchunk
    rcases mem_cons.mp hx with rfl | hx
    · exact hlarge
    · exact hs.small_keeps hkeeps hx hxchunk
  · intro x hx hxchunk
    rcases mem_cons.mp hx with rfl | hx
    · rw [hchunk] at hxchunk
      cases hxchunk
    · show ∃ d ∈ h'.mapAllocationList, _
      rw [hmaps]
      exact hs.large x hx hxchunk
  · show ∀ d ∈ h'.mapAllocationList, _
    rw [hmaps]
    exact fun d hd => mem_cons_of_mem _ (hs.maps_live d hd)

theorem roundPage_bounds (hsize : size ≤ 2 ^ 64 - kPageSize) :
    size ≤ roundPage size ∧ roundPage (roundPage size) = roundPage size := by
  have hpage : kPageSize = 4096 := rfl
  unfold roundPage
  rw [hpage] at hsize ⊢
  omega

/-- A mapping of its own, and a slot for its descriptor. -/
theorem StateOk.mapAlloc (hs : StateOk s) (hlarge : kMaxBucketAllocationSize < size)
    (hsize : size ≤ 2 ^ 64 - kPageSize) :
    s.heap.mapAlloc size = .error .notFresh ∨ s.heap.mapAlloc size = .error .abort ∨
      ∃ p h', s.heap.mapAlloc size = .ok (p, h') ∧ p ∉ s.pointers ∧
        StateOk ⟨h', ⟨p, size⟩ :: s.live⟩ := by
  obtain ⟨hround, hagain⟩ := roundPage_bounds hsize
  have hdescriptor : sizeofMapAllocation ≤ kMaxBucketAllocationSize := by decide
  unfold HeapImpl.mapAlloc
  rcases hs.chunks.allocBucket hs.regions hdescriptor with
    herr | ⟨slot, h₁, hrun, ⟨hchunks, hregions, hkeeps, hnot, hused, hmaps, -⟩⟩
  · rw [herr]
    exact .inl rfl
  rw [hrun, ok_bind_eq]
  dsimp only
  rcases mapAligned_cases h₁.kernel (roundPage size) with
    hmap | hmap | ⟨p, k', hmap, hfresh, hmapped⟩
  · rw [hmap]
    exact .inl rfl
  · rw [hmap]
    exact .inr (.inl rfl)
  rw [hmap]
  rw [hagain] at hfresh hmapped
  obtain ⟨hnone, hnomap⟩ := hregions.fresh hfresh (by omega)
  have hchunk : isChunk p = false := by
    unfold isChunk
    rw [hfresh.1]
    rfl
  have hpointer : p ∉ s.pointers := by
    intro hmem
    obtain ⟨x, hx, rfl⟩ := mem_map.mp hmem
    obtain ⟨d, hd, hdx, -⟩ := hs.large x hx hchunk
    exact hnomap d (hmaps ▸ hd) hdx
  have hnew : slot ∉ s.owners := by
    rw [← hs.used_iff]
    exact hnot
  have howners : (owners ⟨{ h₁ with
      kernel := k'
      mapAllocationList := ⟨slot, p, roundPage size⟩ :: h₁.mapAllocationList },
      ⟨p, size⟩ :: s.live⟩).Perm (slot :: s.owners) := by
    show ((p :: s.pointers).filter isChunk ++
      slot :: h₁.mapAllocationList.map MapAllocation.slot).Perm _
    rw [filter_cons_of_neg (by rw [hchunk]; decide), hmaps]
    exact perm_middle
  refine .inr (.inr ⟨p, _, rfl, hpointer, ?_, ?_, ?_, ?_, ?_, ?_, ?_, ?_⟩)
  · exact ⟨hchunks.chunk_ok, hchunks.free_iff, hchunks.full_iff⟩
  · refine ⟨?_, ?_, ?_, ?_, ?_, ?_⟩
    · show k'.mapped.Pairwise _
      rw [hmapped]
      exact pairwise_cons.mpr ⟨fun r => hfresh.2.2 r, hregions.mapped_disjoint⟩
    · intro a ha
      show _ ∈ k'.mapped
      rw [hmapped]
      exact mem_cons_of_mem _ (hregions.chunk_mapped a ha)
    · show ∀ d ∈ _, _ ∈ k'.mapped
      rw [hmapped]
      exact forall_mem_cons.mpr
        ⟨mem_cons_self, fun d hd => mem_cons_of_mem _ (hregions.map_mapped d hd)⟩
    · exact forall_mem_cons.mpr
        ⟨⟨hfresh.1, by show 0 < roundPage size; omega⟩, hregions.map_aligned⟩
    · exact forall_mem_cons.mpr ⟨hnone, hregions.map_not_chunk⟩
    · refine nodup_cons.mpr ⟨?_, hregions.map_nodup⟩
      intro hmem
      obtain ⟨d, hd, hdp⟩ := mem_map.mp hmem
      exact hnomap d hd hdp
  · exact nodup_cons.mpr ⟨hpointer, hs.pointers_nodup⟩
  · rw [howners.nodup_iff]
    exact nodup_cons.mpr ⟨hnew, hs.owners_nodup⟩
  · intro q
    rw [howners.mem_iff, mem_cons, ← hs.used_iff, or_comm]
    exact hused q
  · intro x hx hxchunk
    rcases mem_cons.mp hx with rfl | hx
    · rw [hchunk] at hxchunk
      cases hxchunk
    · exact hs.small_keeps hkeeps hx hxchunk
  · intro x hx hxchunk
    rcases mem_cons.mp hx with rfl | hx
    · exact ⟨_, mem_cons_self, rfl, hround⟩
    · obtain ⟨d, hd, hdx⟩ := hs.large x hx hxchunk
      exact ⟨d, mem_cons_of_mem _ (hmaps ▸ hd), hdx⟩
  · exact forall_mem_cons.mpr
      ⟨mem_cons_self, fun d hd => mem_cons_of_mem _ (hs.maps_live d (hmaps ▸ hd))⟩

/-! ### `Free` -/

variable {h : HeapImpl} {ptr : Nat}

/-- The pointers that are left when one is freed. -/
theorem mem_pointers_filter {live : List Allocated} {q : Nat} :
    q ∈ pointers ⟨h, live.filter (·.ptr ≠ ptr)⟩ ↔
      q ∈ live.map Allocated.ptr ∧ q ≠ ptr := by
  show q ∈ (live.filter ((decide <| · ≠ ptr) ∘ Allocated.ptr)).map Allocated.ptr ↔ _
  rw [← filter_map, mem_filter, decide_eq_true_eq]

/-- A descriptor does not lie in the slot of a live allocation. -/
theorem StateOk.slot_ne (hs : StateOk s) (hlive : ptr ∈ s.pointers) (hchunk : isChunk ptr = true)
    {d : MapAllocation} (hd : d ∈ s.heap.mapAllocationList) : d.slot ≠ ptr := by
  intro hslot
  have hdisjoint := (nodup_append.mp hs.owners_nodup).2.2
  exact hdisjoint ptr (mem_filter.mpr ⟨hlive, hchunk⟩) d.slot (mem_map_of_mem hd)
    hslot.symm

/-- The owner of a slot gives it back. -/
theorem StateOk.chunkFree (hs : StateOk s) (hlive : ptr ∈ s.pointers) (hchunk : isChunk ptr = true)
    : ∃ h', s.heap.chunkFree ptr = .ok h' ∧ StateOk ⟨h', s.live.filter (·.ptr ≠ ptr)⟩ := by
  have howner : ptr ∈ s.owners := mem_owners_iff.mpr (.inl ⟨hlive, hchunk⟩)
  obtain ⟨h', hrun, hchunks, hsame, hused⟩ := hs.chunks.chunkFree ((hs.used_iff ptr).mpr howner)
  refine ⟨h', hrun, hchunks, hs.regions.congr hsame, ?_, ?_, ?_, ?_, ?_, ?_⟩
  · exact hs.pointers_nodup.sublist (filter_sublist.map _)
  · refine hs.owners_nodup.sublist (List.Sublist.append ?_ ?_)
    · exact (filter_sublist.map _).filter _
    · show (h'.mapAllocationList.map _).Sublist _
      rw [hsame.maps_eq]
  · intro q
    rw [hused, hs.used_iff, mem_owners_iff, mem_owners_iff, mem_pointers_filter]
    show _ ↔ _ ∨ ∃ d ∈ h'.mapAllocationList, d.slot = q
    rw [hsame.maps_eq]
    constructor
    · rintro ⟨hsmall | hslot, hne⟩
      · exact .inl ⟨⟨hsmall.1, hne⟩, hsmall.2⟩
      · exact .inr hslot
    · rintro (⟨⟨hmem, hne⟩, hq⟩ | ⟨d, hd, rfl⟩)
      · exact ⟨.inl ⟨hmem, hq⟩, hne⟩
      · exact ⟨.inr ⟨d, hd, rfl⟩, hs.slot_ne hlive hchunk hd⟩
  · intro x hx hxchunk
    exact hs.small_keeps hsame.keepsSizes (mem_filter.mp hx).1 hxchunk
  · intro x hx hxchunk
    show ∃ d ∈ h'.mapAllocationList, _
    rw [hsame.maps_eq]
    exact hs.large x (mem_filter.mp hx).1 hxchunk
  · show ∀ d ∈ h'.mapAllocationList, _
    rw [hsame.maps_eq]
    intro d hd
    refine mem_pointers_filter.mpr ⟨hs.maps_live d hd, ?_⟩
    rintro rfl
    -- a mapping is aligned to a chunk, a slot is not
    have haligned := (hs.regions.map_aligned d hd).1
    exact of_decide_eq_true hchunk haligned

/-- The regions of a heap without one of its mappings. -/
theorem RegionsOk.munmap (hr : RegionsOk h) {d : MapAllocation} (hd : d ∈ h.mapAllocationList) :
    RegionsOk { h with
      kernel := h.kernel.munmap d.ptr d.size
      mapAllocationList := h.mapAllocationList.erase d } := by
  have hmem : ∀ e ∈ h.mapAllocationList.erase d, e ∈ h.mapAllocationList :=
    fun e => mem_of_mem_erase
  have hptr : ∀ e ∈ h.mapAllocationList.erase d, e.ptr ≠ d.ptr := by
    have hperm := ((perm_cons_erase hd).map MapAllocation.ptr).nodup_iff.mp hr.map_nodup
    intro e he heq
    exact (nodup_cons.mp hperm).1 (heq ▸ mem_map_of_mem he)
  refine ⟨?_, ?_, ?_, ?_, ?_, ?_⟩
  · exact hr.mapped_disjoint.filter _
  · intro a ha
    refine mem_filter.mpr ⟨hr.chunk_mapped a ha, decide_eq_true ?_⟩
    intro heq
    have hnone := hr.map_not_chunk d hd
    rw [← (Prod.mk.inj heq).1] at hnone
    rw [hnone] at ha
    cases ha
  · intro e he
    refine mem_filter.mpr ⟨hr.map_mapped e (hmem e he), decide_eq_true ?_⟩
    intro heq
    exact hptr e he (Prod.mk.inj heq).1
  · exact fun e he => hr.map_aligned e (hmem e he)
  · exact fun e he => hr.map_not_chunk e (hmem e he)
  · exact hr.map_nodup.sublist (erase_sublist.map _)

/-- The search finds the one descriptor of a mapping. -/
theorem RegionsOk.find_eq_some (hr : RegionsOk h) {d : MapAllocation}
    (hd : d ∈ h.mapAllocationList) (hptr : d.ptr = ptr) :
    h.mapAllocationList.find? (·.ptr = ptr) = some d :=
  find?_of_nodup_map hr.map_nodup hd hptr

/-- A mapping is removed, and the slot of its descriptor given back. -/
theorem StateOk.mapFree (hs : StateOk s) (hlive : ptr ∈ s.pointers) (hchunk : isChunk ptr = false) :
    ∃ h', s.heap.mapFree ptr = .ok h' ∧ StateOk ⟨h', s.live.filter (·.ptr ≠ ptr)⟩ := by
  obtain ⟨x, hx, rfl⟩ := mem_map.mp hlive
  obtain ⟨d, hd, hdx, -⟩ := hs.large x hx hchunk
  have howner : d.slot ∈ s.owners := mem_owners_iff.mpr (.inr ⟨d, hd, rfl⟩)
  have hslot : UsedSlot s.heap d.slot := (hs.used_iff _).mpr howner
  have hunmapped : ChunksOk { s.heap with kernel := s.heap.kernel.munmap d.ptr d.size } :=
    ⟨hs.chunks.chunk_ok, hs.chunks.free_iff, hs.chunks.full_iff⟩
  obtain ⟨h₁, hrun, hchunks, hsame, hused⟩ := hunmapped.chunkFree hslot
  have hperm := perm_cons_erase hd
  have hptrs := (hperm.map MapAllocation.ptr).nodup_iff.mp hs.regions.map_nodup
  have howners : s.owners.Perm (d.slot :: (s.pointers.filter isChunk ++
      (s.heap.mapAllocationList.erase d).map MapAllocation.slot)) :=
    (List.Perm.append_left _ (hperm.map MapAllocation.slot)).trans perm_middle
  -- what is freed is no slot, so the slots of the live allocations stay
  have hleft : owners ⟨{ h₁ with mapAllocationList := h₁.mapAllocationList.erase d },
      s.live.filter (·.ptr ≠ x.ptr)⟩ = s.pointers.filter isChunk ++
        (s.heap.mapAllocationList.erase d).map MapAllocation.slot := by
    show ((s.live.filter fun y => decide (y.ptr ≠ x.ptr)).map Allocated.ptr).filter isChunk
      ++ (h₁.mapAllocationList.erase d).map MapAllocation.slot = _
    rw [hsame.maps_eq]
    congr 1
    unfold pointers
    rw [filter_map, filter_map, filter_filter]
    congr 1
    apply filter_congr
    intro y _
    show (isChunk y.ptr && decide (y.ptr ≠ x.ptr)) = isChunk y.ptr
    by_cases hy : y.ptr = x.ptr
    · rw [hy, hchunk]
      rfl
    · rw [decide_eq_true hy, Bool.and_true]
  have hnodup := nodup_cons.mp (howners.nodup_iff.mp hs.owners_nodup)
  refine ⟨{ h₁ with mapAllocationList := h₁.mapAllocationList.erase d }, ?_, ?_, ?_, ?_, ?_, ?_,
    ?_, ?_, ?_⟩
  · unfold HeapImpl.mapFree
    rw [hs.regions.find_eq_some hd hdx]
    dsimp only
    rw [if_pos (hs.chunks.isChunk_of_used hslot), hrun]
    rfl
  · exact ⟨hchunks.chunk_ok, hchunks.free_iff, hchunks.full_iff⟩
  · refine (hs.regions.munmap hd).congr ⟨hsame.sizes_eq, ?_, hsame.kernel_eq⟩
    show h₁.mapAllocationList.erase d = _
    rw [hsame.maps_eq]
  · exact hs.pointers_nodup.sublist (filter_sublist.map _)
  · rw [hleft]
    exact hnodup.2
  · intro q
    rw [hleft]
    refine (hused q).trans ?_
    show UsedSlot s.heap q ∧ q ≠ d.slot ↔ _
    rw [hs.used_iff, howners.mem_iff, mem_cons]
    constructor
    · rintro ⟨hq, hne⟩
      exact hq.resolve_left hne
    · intro hq
      refine ⟨.inr hq, ?_⟩
      rintro rfl
      exact hnodup.1 hq
  · intro y hy hychunk
    exact hs.small_keeps hsame.keepsSizes (mem_filter.mp hy).1 hychunk
  · intro y hy hychunk
    obtain ⟨hylive, hyne⟩ := mem_filter.mp hy
    obtain ⟨e', he', hey, hsize⟩ := hs.large y hylive hychunk
    have hne : e' ≠ d := by
      rintro rfl
      exact of_decide_eq_true hyne (hey.symm.trans hdx)
    refine ⟨e', ?_, hey, hsize⟩
    show e' ∈ h₁.mapAllocationList.erase d
    rw [hsame.maps_eq]
    exact (mem_erase_of_ne hne).mpr he'
  · show ∀ e' ∈ h₁.mapAllocationList.erase d, _
    rw [hsame.maps_eq]
    intro e' he'
    refine mem_pointers_filter.mpr ⟨hs.maps_live e' (mem_of_mem_erase he'), ?_⟩
    intro heq
    exact (nodup_cons.mp hptrs).1
      (mem_map.mpr ⟨e', he', heq.trans hdx.symm⟩)

/-! ### Runs -/

/-- One call: the kernel is not honest or has no room, or the invariant is kept; an
allocation returns a pointer that was not live. -/
theorem StateOk.step (hs : StateOk s) {call : HeapCall} (hlegal : call.Legal s)
    (hbounds : call.InBounds) :
    s.step call = .error .notFresh ∨ s.step call = .error .abort ∨
      ∃ s', s.step call = .ok s' ∧ StateOk s' ∧ ∀ size, call = .alloc size →
        ∃ p, s'.live = ⟨p, size⟩ :: s.live ∧ p ∉ s.pointers := by
  cases call with
  | alloc size =>
    have hcases : s.heap.alloc size = .error .notFresh ∨ s.heap.alloc size = .error .abort ∨
        ∃ p h', s.heap.alloc size = .ok (p, h') ∧ p ∉ s.pointers ∧
          StateOk ⟨h', ⟨p, size⟩ :: s.live⟩ := by
      unfold HeapImpl.alloc
      split
      · rename_i hlarge
        exact hs.mapAlloc hlarge hbounds
      · rename_i hsmall
        rcases hs.allocBucket (Nat.le_of_not_lt hsmall) with herr | hok
        · exact .inl herr
        · exact .inr (.inr hok)
    simp only [HeapState.step]
    rcases hcases with herr | herr | ⟨p, h', hrun, hnew, hs'⟩
    · rw [herr]
      exact .inl rfl
    · rw [herr]
      exact .inr (.inl rfl)
    · rw [hrun]
      refine .inr (.inr ⟨_, rfl, hs', ?_⟩)
      intro size' hsize
      cases hsize
      exact ⟨p, rfl, hnew⟩
  | free ptr =>
    have hrun : ∃ h', s.heap.free ptr = .ok h' ∧
        StateOk ⟨h', s.live.filter (·.ptr ≠ ptr)⟩ := by
      unfold HeapImpl.free
      cases hchunk : isChunk ptr with
      | true =>
        exact hs.chunkFree hlegal hchunk
      | false =>
        exact hs.mapFree hlegal hchunk
    obtain ⟨h', hfree, hs'⟩ := hrun
    simp only [HeapState.step]
    rw [hfree]
    exact .inr (.inr ⟨_, rfl, hs', nofun⟩)

/-- Every state of a run meets the invariant. -/
theorem stateOk_of_reachable {addrs : Nat → Nat} (hs : Reachable addrs s) : StateOk s := by
  induction hs with
  | new => exact stateOk_new addrs
  | step _ hlegal hbounds hstep ih =>
    rcases ih.step hlegal hbounds with herr | herr | ⟨s', hok, hs', -⟩
    · rw [herr] at hstep
      cases hstep
    · rw [herr] at hstep
      cases hstep
    · rw [hok] at hstep
      cases hstep
      exact hs'

/-! ### What the invariant promises -/

/-- Two mapped regions that are not the same. -/
theorem RegionsOk.disjoint (hr : RegionsOk h) {r r' : Nat × Nat} (hmem : r ∈ h.kernel.mapped)
    (hmem' : r' ∈ h.kernel.mapped) (hne : r ≠ r') : r.1 + r.2 ≤ r'.1 ∨ r'.1 + r'.2 ≤ r.1 := by
  have hsymm : Std.Symm fun r r' : Nat × Nat => r.1 + r.2 ≤ r'.1 ∨ r'.1 + r'.2 ≤ r.1 :=
    ⟨fun _ _ hor => hor.symm⟩
  exact hr.mapped_disjoint.forall hmem hmem' hne

/-- A chunk and a mapping. -/
theorem RegionsOk.chunk_disjoint (hr : RegionsOk h) {a : Nat} {c : Chunk} {d : MapAllocation}
    (hc : h.chunkAt a = some c) (hd : d ∈ h.mapAllocationList) :
    a + kChunkSize ≤ d.ptr ∨ d.ptr + d.size ≤ a := by
  refine hr.disjoint (hr.chunk_mapped a (by rw [hc]; rfl)) (hr.map_mapped d hd) ?_
  intro heq
  have hnone := hr.map_not_chunk d hd
  rw [← (Prod.mk.inj heq).1, hc] at hnone
  cases hnone

/-- The place of a live allocation: a slot of a chunk, or a mapping. -/
inductive Place (h : HeapImpl) (p : Nat) : Prop where
  | slot (a : Nat) (c : Chunk) (n : Nat) (hc : h.chunkAt a = some c) (hok : ChunkOk a c)
      (hn : n < c.maxAllocations) (hp : p = c.nToPtr n) (hsize : h.usableSize p = c.allocationSize)
  | mapping (d : MapAllocation) (hd : d ∈ h.mapAllocationList) (hp : p = d.ptr)
      (hsize : h.usableSize p = d.size)

theorem StateOk.place (hs : StateOk s) {x : Allocated} (hx : x ∈ s.live) :
    Place s.heap x.ptr ∧ x.size ≤ s.heap.usableSize x.ptr := by
  cases hchunk : isChunk x.ptr with
  | true =>
    have hused : UsedSlot s.heap x.ptr := (hs.used_iff _).mpr
      (mem_owners_iff.mpr (.inl ⟨mem_map_of_mem hx, hchunk⟩))
    obtain ⟨c, n, hc, hn, -, hptr⟩ := hs.chunks.chunk_of_used hused
    obtain ⟨c', hc', hsize⟩ := hs.small x hx hchunk
    rw [hc, Option.some.injEq] at hc'
    subst hc'
    have husable : s.heap.usableSize x.ptr = c.allocationSize := by
      unfold HeapImpl.usableSize
      rw [if_pos hchunk, hc]
      rfl
    exact ⟨.slot _ c n hc (hs.chunks.chunk_ok _ c hc) hn hptr husable, husable ▸ hsize⟩
  | false =>
    obtain ⟨d, hd, hdx, hsize⟩ := hs.large x hx hchunk
    have husable : s.heap.usableSize x.ptr = d.size := by
      unfold HeapImpl.usableSize
      rw [if_neg (by rw [hchunk]; decide), hs.regions.find_eq_some hd hdx]
      rfl
    exact ⟨.mapping d hd hdx.symm husable, husable ▸ hsize⟩

/-- Different places do not overlap. -/
theorem Place.disjoint (hr : RegionsOk h) {p q : Nat} (hp : Place h p) (hq : Place h q)
    (hne : p ≠ q) : p + h.usableSize p ≤ q ∨ q + h.usableSize q ≤ p := by
  have husable : kUsableChunkSize = 258048 := rfl
  have hchunk : kChunkSize = 262144 := rfl
  have hdata : dataOffset = 4096 := rfl
  cases hp with
  | slot a c n hc hok hn hp hsize =>
    have hend := hok.slot_le hn
    have hptr := hok.nToPtr_eq hn
    cases hq with
    | slot a' c' n' hc' hok' hn' hq hsize' =>
      have hend' := hok'.slot_le hn'
      have hptr' := hok'.nToPtr_eq hn'
      by_cases ha : a = a'
      · -- two slots of one chunk
        subst ha
        rw [hc, Option.some.injEq] at hc'
        subst hc'
        have hnn : n ≠ n' := by
          rintro rfl
          exact hne (hp.trans hq.symm)
        have hmul : ∀ {k k' : Nat}, k < k' →
            k * c.allocationSize + c.allocationSize ≤ k' * c.allocationSize := by
          intro k k' hlt
          rw [← Nat.succ_mul]
          exact Nat.mul_le_mul_right _ hlt
        rcases Nat.lt_or_gt_of_ne hnn with hlt | hlt
        · have := hmul hlt
          omega
        · have := hmul hlt
          omega
      · have hdisjoint := hr.disjoint (hr.chunk_mapped a (by rw [hc]; rfl))
          (hr.chunk_mapped a' (by rw [hc']; rfl)) fun heq => ha (Prod.mk.inj heq).1
        omega
    | mapping d hd hq hsize' =>
      have hdisjoint := hr.chunk_disjoint hc hd
      omega
  | mapping d hd hp hsize =>
    cases hq with
    | slot a' c' n' hc' hok' hn' hq hsize' =>
      have hend' := hok'.slot_le hn'
      have hptr' := hok'.nToPtr_eq hn'
      have hdisjoint := hr.chunk_disjoint hc' hd
      omega
    | mapping d' hd' hq hsize' =>
      have hdisjoint := hr.disjoint (hr.map_mapped d hd) (hr.map_mapped d' hd')
        fun heq => hne (hp.trans ((Prod.mk.inj heq).1.trans hq.symm))
      omega

/-- `Empty`: every chunk has all of its slots free. -/
theorem ChunksOk.empty_iff (hh : ChunksOk h) : h.empty = true ↔ ∀ p, ¬ UsedSlot h p := by
  have hchunks : h.empty = true ↔ ∀ a c, h.chunkAt a = some c → c.freeCount = c.maxAllocations := by
    unfold HeapImpl.empty
    simp only [all_eq_true, mem_range, Bool.and_eq_true]
    constructor
    · intro hall a c hc
      obtain ⟨hfree, hfull⟩ := hall c.bucket (hh.chunk_ok a c hc).bucket_lt
      have hempty : (h.chunkAt a).all empty = true := by
        by_cases hzero : c.freeCount = 0
        · exact hfull a ((hh.full_iff _ a).mpr ⟨c, hc, rfl, hzero⟩)
        · exact hfree a ((hh.free_iff _ a).mpr ⟨c, hc, rfl, hzero⟩)
      rw [hc] at hempty
      exact of_decide_eq_true hempty
    · intro hall b _
      refine ⟨?_, ?_⟩
      · intro a ha
        obtain ⟨c, hc, -⟩ := (hh.free_iff b a).mp ha
        rw [hc]
        exact decide_eq_true (hall a c hc)
      · intro a ha
        obtain ⟨c, hc, -⟩ := (hh.full_iff b a).mp ha
        rw [hc]
        exact decide_eq_true (hall a c hc)
  rw [hchunks]
  constructor
  · rintro hall p ⟨a, c, n, hc, hn, hbit, -⟩
    have hcount := hall a c hc
    rw [(hh.chunk_ok a c hc).count_eq] at hcount
    rw [Bitmap.countBelow_eq_iff.mp hcount n hn] at hbit
    cases hbit
  · intro hnone a c hc
    rw [(hh.chunk_ok a c hc).count_eq]
    refine Bitmap.countBelow_eq_iff.mpr ?_
    intro n hn
    by_contra hbit
    exact hnone _ ⟨a, c, n, hc, hn, Bool.eq_false_iff.mpr hbit, rfl⟩

/-- The invariant implies what the heap promises. -/
theorem StateOk.wellFormed (hs : StateOk s) : s.WellFormed where
  free_count := fun a c hc => (hs.chunks.chunk_ok a c hc).count_eq
  full_iff := by
    intro a c b hc
    rw [hs.chunks.full_iff, hc]
    simp
  large_enough := fun x hx => (hs.place hx).2
  disjoint := by
    have hne : s.live.Pairwise fun x y => x.ptr ≠ y.ptr := pairwise_map.mp hs.pointers_nodup
    refine hne.imp_of_mem ?_
    intro x y hx hy hxy
    exact (hs.place hx).1.disjoint hs.regions (hs.place hy).1 hxy
  empty_iff := by
    rw [hs.chunks.empty_iff]
    simp only [hs.used_iff, mem_owners_iff]
    constructor
    · intro hnone
      rw [eq_nil_iff_forall_not_mem]
      intro x hx
      cases hchunk : isChunk x.ptr with
      | true => exact hnone x.ptr (.inl ⟨mem_map_of_mem hx, hchunk⟩)
      | false =>
        obtain ⟨d, hd, -⟩ := hs.large x hx hchunk
        exact hnone d.slot (.inr ⟨d, hd, rfl⟩)
    · intro hnil p
      have hpointers : s.pointers = [] := by
        unfold pointers
        rw [hnil]
        rfl
      rintro (⟨hmem, -⟩ | ⟨d, hd, -⟩)
      · rw [hpointers] at hmem
        cases hmem
      · have hmem := hs.maps_live d hd
        rw [hpointers] at hmem
        cases hmem

/-- Every run whose sizes do not wrap, and that frees live pointers only: in each of its
states the heap is well-formed, and the next call fails no assertion and follows no wild
pointer. An allocation returns a pointer that was not live, to as many bytes as asked. -/
theorem heap_invariant {addrs : Nat → Nat} {s : HeapState} (hs : Reachable addrs s) :
    s.WellFormed ∧ ∀ call : HeapCall, call.Legal s → call.InBounds →
      s.step call ≠ .error .assertion ∧ s.step call ≠ .error .undefined ∧
      ∀ s' size, s.step call = .ok s' → call = .alloc size →
        ∃ p, s'.live = ⟨p, size⟩ :: s.live ∧ p ∉ s.pointers ∧ size ≤ s'.heap.usableSize p := by
  have hok := stateOk_of_reachable hs
  refine ⟨hok.wellFormed, ?_⟩
  intro call hlegal hbounds
  rcases hok.step hlegal hbounds with herr | herr | ⟨s₁, hrun, hs₁, hnew⟩
  · rw [herr]
    exact ⟨nofun, nofun, nofun⟩
  · rw [herr]
    exact ⟨nofun, nofun, nofun⟩
  · rw [hrun]
    refine ⟨nofun, nofun, ?_⟩
    intro s' size heq hcall
    cases heq
    obtain ⟨p, hlive, hp⟩ := hnew size hcall
    refine ⟨p, hlive, hp, ?_⟩
    exact hs₁.wellFormed.large_enough ⟨p, size⟩ (by rw [hlive]; exact mem_cons_self)

/-- A kernel that gives out one chunk after the other. -/
def upwards (n : Nat) : Nat := (n + 1) * kChunkSize

/-- A result that passes a test is there. -/
theorem exists_of_any {x : Except HeapFault HeapState} {p : HeapState → Bool}
    (h : x.toOption.any p = true) : ∃ s, x = .ok s ∧ p s = true := by
  cases x with
  | error e => cases h
  | ok s => exact ⟨s, rfl, h⟩

/-- A small allocation, and a large one that is freed again. -/
theorem heap_invariant_allocFree :
    ∃ s₁ s₂ s, (HeapState.new upwards).step (.alloc 24) = .ok s₁ ∧
      s₁.step (.alloc 100000) = .ok s₂ ∧ s₂.step (.free (2 * kChunkSize)) = .ok s ∧
      s.live = [⟨kChunkSize + dataOffset, 24⟩] ∧ s.WellFormed := by
  obtain ⟨s₁, hs₁, -⟩ := exists_of_any (p := fun _ => true)
    (show ((HeapState.new upwards).step (.alloc 24)).toOption.any _ = true by decide +kernel)
  obtain ⟨s₂, hs₂, hlive⟩ := exists_of_any (p := fun s => 2 * kChunkSize ∈ s.pointers)
    (show (s₁.step (.alloc 100000)).toOption.any _ = true by
      have h : ((HeapState.new upwards).step (.alloc 24) >>= (·.step (.alloc 100000))).toOption.any
        (fun s => 2 * kChunkSize ∈ s.pointers) = true := by decide +kernel
      rwa [hs₁] at h)
  obtain ⟨s, hs, hrest⟩ := exists_of_any
    (p := fun s => s.live = [⟨kChunkSize + dataOffset, 24⟩])
    (show (s₂.step (.free (2 * kChunkSize))).toOption.any _ = true by
      have h : ((HeapState.new upwards).step (.alloc 24) >>= (·.step (.alloc 100000)) >>=
          (·.step (.free (2 * kChunkSize)))).toOption.any
        (fun s => s.live = [⟨kChunkSize + dataOffset, 24⟩]) = true := by decide +kernel
      rw [hs₁] at h
      change ((s₁.step (.alloc 100000)) >>= _).toOption.any _ = true at h
      rwa [hs₂] at h)
  have halloc : ∀ {s s' : HeapState} {size : Nat}, Reachable upwards s → size ≤ 100000 →
      s.step (.alloc size) = .ok s' → Reachable upwards s' := by
    intro s s' size hreach hsize hstep
    refine .step hreach (show (HeapCall.alloc size).Legal s from trivial) ?_ hstep
    exact Nat.le_trans hsize (by decide)
  have hreach₂ := halloc (halloc .new (by decide) hs₁) le_rfl hs₂
  have hmem : 2 * kChunkSize ∈ s₂.pointers := of_decide_eq_true hlive
  have hlegal : (HeapCall.free (2 * kChunkSize)).Legal s₂ := hmem
  have hreach : Reachable upwards s := .step hreach₂ hlegal trivial hs
  exact ⟨s₁, s₂, s, hs₁, hs₂, hs, of_decide_eq_true hrest, (heap_invariant hreach).1⟩

/-- A size that wraps when it is rounded to pages: `Alloc` returns a mapping that is smaller
than what was asked for. -/
theorem largeAlloc_too_small :
    (((HeapState.new upwards).step (.alloc (2 ^ 64 - 1))).toOption.any fun s =>
      s.live.any fun x => s.heap.usableSize x.ptr < x.size) = true := by
  decide +kernel

end AndroidCore.Libmemunreachable
