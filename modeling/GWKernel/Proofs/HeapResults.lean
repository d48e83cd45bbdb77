import GWKernel.Proofs.HeapLeases

/-! What `kmalloc` returns: the block of the pointer, and what is left behind when there is none.
`align_up` and `expand_heap` add modulo 2^64. -/

namespace GWKernel.Heap
open Lib Pmm Option

variable {π : Type}

def fitting (need : Nat) (free : List Block) : Option Block := free.find? fun block => need ≤ block.size

variable {need : Nat} {free : List Block} {block : Block} {size : Nat}

theorem fitting_eq_some :
    fitting need free = some block ↔ need ≤ block.size ∧
      ∃ lower upper, free = lower ++ block :: upper ∧ ∀ other ∈ lower, other.size < need := by
  simp [fitting, List.find?_eq_some_iff_append]

theorem fitting_eq_none : fitting need free = none ↔ ∀ block ∈ free, block.size < need := by
  simp [fitting, List.find?_eq_none]

theorem needFor_plain (size : Nat) : needFor size heapAlign = max (alignUp size heapAlign) 16 := by
  have plain : effectiveAlign heapAlign = heapAlign := by decide
  simp only [needFor, plain, Nat.lt_irrefl, if_false]

theorem needFor_small (small : size ≤ 2 ^ 64 - 4160) :
    size ≤ needFor size heapAlign ∧ needFor size heapAlign + 4151 < 2 ^ 64 := by
  rw [needFor_plain]
  simp only [alignUp, heapAlign, u64]
  omega

theorem needFor_large (large : 2 ^ 64 - 4160 < size) (rounds : size ≤ 2 ^ 64 - 16) :
    2 ^ 32 ≤ needFor size heapAlign ∧ expandPages (needFor size heapAlign) = heapExpandPages := by
  rw [needFor_plain]
  simp only [expandPages, alignUp, heapAlign, heapExpandPages, headerSize, heapMinBlock, pageSize, u64]
  omega

theorem needFor_wraps (wraps : 2 ^ 64 - 16 < size) (wide : size < 2 ^ 64) : needFor size heapAlign = 16 := by
  rw [needFor_plain]
  simp only [alignUp, heapAlign, u64]
  omega

theorem expandPages_wraps (large : 2 ^ 64 - 4160 < size) (wide : size < 2 ^ 64) :
    expandPages (needFor size heapAlign) = heapExpandPages := by
  by_cases rounds : size ≤ 2 ^ 64 - 16
  · exact (needFor_large large rounds).2
  · rw [needFor_wraps (by omega) wide]
    decide

theorem region_room (phys : Nat) (fits : need + 4151 < 2 ^ 64) :
    need ≤ (regionBlock phys (expandPages need)).size := by
  simp only [regionBlock, expandPages, heapExpandPages, headerSize, heapMinBlock, pageSize, u64]
  omega

theorem needFor_usual (wide : size < 2 ^ 64) (usual : ¬(2 ^ 64 - 4160 < size ∧ size ≤ 2 ^ 64 - 16)) :
    needFor size heapAlign + 4151 < 2 ^ 64 := by
  by_cases small : size ≤ 2 ^ 64 - 4160
  · exact (needFor_small small).2
  · rw [needFor_wraps (by omega) wide]
    decide

/-- How a call ends, told from the free list and the page allocator it begins with. -/
inductive Answer (allocPages : PageSource π) (heap : State (π × List Span)) (free : List Block) (need : Nat) :
    Nat → State (π × List Span) → Prop where
  | fits {block : Block} {after : State (π × List Span)} (found : fitting need free = some block)
      (room : need ≤ sizeAt after.mem block.addr) (bound : sizeAt after.mem block.addr < 2 ^ 32) :
      Answer allocPages heap free need (block.addr + headerSize) after
  | refused (absent : fitting need free = none) (refused : (allocPages (expandPages need) heap.pmm.1).1 = 0) :
      Answer allocPages heap free need 0
        { heap with pmm := ((allocPages (expandPages need) heap.pmm.1).2, heap.pmm.2) }
  | grown {larger : List Block} {block : Block} {after : State (π × List Span)} (absent : fitting need free = none)
      (granted : (allocPages (expandPages need) heap.pmm.1).1 ≠ 0)
      (coalesces : Coalesces (regionBlock (allocPages (expandPages need) heap.pmm.1).1 (expandPages need)) free larger)
      (found : fitting need larger = some block) (room : need ≤ sizeAt after.mem block.addr)
      (bound : sizeAt after.mem block.addr < 2 ^ 32) :
      Answer allocPages heap free need (block.addr + headerSize) after
  | futile {after : State (π × List Span)} (absent : fitting need free = none)
      (granted : (allocPages (expandPages need) heap.pmm.1).1 ≠ 0)
      (short : (regionBlock (allocPages (expandPages need) heap.pmm.1).1 (expandPages need)).size < need)
      (grows : heap.total < after.total) : Answer allocPages heap free need 0 after

section
variable {allocPages : PageSource π} {owns : π → List Span → Prop} {heap after : State (π × List Span)}
  {free : List Block} {owned : List Owned} {fuel size need rounds ptr : Nat} (layout : Layout heap [] free owned)
  (returned : kmallocLoop (traced allocPages) fuel size heapAlign need rounds heap = some (ptr, after))
include layout returned

theorem kmallocLoop_fits {block : Block} (found : fitting need free = some block) :
    ptr = block.addr + headerSize ∧ need ≤ sizeAt after.mem block.addr ∧ sizeAt after.mem block.addr < 2 ^ 32 := by
  cases rounds with
  | zero => cases returned
  | succ rounds =>
    rcases kmallocLoop_cases layout returned with
      ⟨lower, first, upper, taking, rfl, passed, large, took, served⟩ | ⟨small, _⟩
    · obtain rfl : first = block :=
        Option.some.inj ((fitting_eq_some.mpr ⟨large, lower, upper, rfl, passed⟩).symm.trans found)
      obtain ⟨rest, taken, kept, header, carves, _⟩ := takeBlock_layout layout large took
      have bounded := kept.bounded (mem_spansOf_hand List.mem_cons_self)
      have room := carves.room large
      rw [← carves.addr] at served ⊢
      rw [handOut_eq, Prod.mk.injEq] at served
      obtain ⟨rfl, rfl⟩ := served
      have size : sizeAt (taking.mem.fill (taken.addr + headerSize) size heapPoisonAlloc) taken.addr = taken.size :=
        (Mem.le_fill_apart _ _ _ _ (.inl (by simp only [headerSize]; omega))).trans header.size
      simp only [Block.Bounded] at bounded
      exact ⟨rfl, Nat.le_trans room (Nat.le_of_eq size.symm), Nat.lt_of_le_of_lt (Nat.le_of_eq size) (by omega)⟩
    · exact absurd (fitting_eq_none.mpr small) (by simp [found])

variable (contract : PageContract allocPages owns) (held : owns heap.pmm.1 heap.pmm.2)
include contract held

theorem kmallocLoop_futile (huge : 2 ^ 32 ≤ need) : ptr = 0 ∧ heap.total ≤ after.total := by
  induction rounds generalizing heap free with
  | zero => cases returned
  | succ rounds ih =>
    rcases kmallocLoop_cases layout returned with
      ⟨lower, block, upper, _, rfl, _, large, _⟩ | ⟨_, expanded, larger, grown, returned⟩
    · have bounded := layout.list.bounded block (by simp)
      simp only [Block.Bounded] at bounded
      omega
    · obtain ⟨free, kept, owns, _, growth⟩ := expandHeap_layout contract layout held grown
      by_cases refused : (allocPages (expandPages need) heap.pmm.1).1 = 0
      · cases ((expandHeap_refused contract held refused).1 fuel).symm.trans grown
        cases returned
        exact ⟨rfl, Nat.le_refl _⟩
      · obtain rfl := expandHeap_granted refused grown
        obtain ⟨zero, more⟩ := ih kept returned owns
        rw [kept.total] at more
        rw [layout.total]
        exact ⟨zero, Nat.le_trans (Nat.le_trans (Nat.le_add_right _ _) (growth rfl)) more⟩

theorem kmallocLoop_answers
    (sized : need ≤ (regionBlock (allocPages (expandPages need) heap.pmm.1).1 (expandPages need)).size ∨ 2 ^ 32 ≤ need) :
    Answer allocPages heap free need ptr after := by
  cases fit : fitting need free with
  | some block =>
    obtain ⟨rfl, room, bound⟩ := kmallocLoop_fits layout returned fit
    exact .fits fit room bound
  | none =>
    cases rounds with
    | zero => cases returned
    | succ rounds =>
      rcases kmallocLoop_cases layout returned with
        ⟨lower, block, upper, _, rfl, passed, large, _⟩ | ⟨_, expanded, larger, grown, returned⟩
      · exact absurd (fitting_eq_some.mpr ⟨large, lower, upper, rfl, passed⟩) (by simp [fit])
      by_cases refused : (allocPages (expandPages need) heap.pmm.1).1 = 0
      · cases ((expandHeap_refused contract held refused).1 fuel).symm.trans grown
        cases returned
        exact .refused fit refused
      obtain ⟨rfl, more, kept, coalesces, pmm, owns, _⟩ := expandHeap_grown contract layout held refused grown
      by_cases room : need ≤ (regionBlock (allocPages (expandPages need) heap.pmm.1).1 (expandPages need)).size
      · obtain ⟨entry, listed, larger⟩ := coalesces.absorbs.larger
        cases found : fitting need more with
        | none => exact absurd (fitting_eq_none.mp found entry listed) (by omega)
        | some block =>
          obtain ⟨rfl, room, bound⟩ := kmallocLoop_fits kept returned found
          exact .grown fit refused coalesces found room bound
      · obtain ⟨rfl, grows⟩ := kmallocLoop_futile kept returned contract owns (sized.resolve_left room)
        refine .futile fit refused (by omega) (Nat.lt_of_lt_of_le ?_ grows)
        have positive := expandPages_pos need
        rw [layout.total, kept.total, pmm, totalSize_cons, regionBlock_span _ positive]
        exact Nat.lt_add_of_pos_left (Nat.mul_pos positive (by decide))

end

theorem kmalloc_eq {allocPages : PageSource π} {heap : State π} (fuel : Nat) (active : heap.ready = true)
    (nonzero : size ≠ 0) : kmalloc allocPages fuel size heap =
      kmallocLoop allocPages fuel size heapAlign (needFor size heapAlign) fuel heap := by
  have plain : effectiveAlign heapAlign = heapAlign := by decide
  rw [kmalloc, kmallocAligned_eq heapAlign fuel active nonzero, plain]

section
variable {allocPages : PageSource π} {owns : π → List Span → Prop} {arena : Arena π} {fuel ptr : Nat}
  {after : State (π × List Span)} (contract : PageContract allocPages owns) (sound : arena.Sound owns free)

include contract sound

theorem Arena.Sound.answers (nonzero : size ≠ 0) (wide : size < 2 ^ 64)
    (returned : kmalloc (traced allocPages) fuel size arena.heap = some (ptr, after)) :
    Answer allocPages arena.heap free (needFor size heapAlign) ptr after := by
  rw [kmalloc_eq fuel sound.ready nonzero] at returned
  refine kmallocLoop_answers sound.layout returned contract sound.held ?_
  by_cases unusual : 2 ^ 64 - 4160 < size ∧ size ≤ 2 ^ 64 - 16
  · exact .inr (needFor_large unusual.1 unusual.2).1
  · exact .inl (region_room _ (needFor_usual wide unusual))

theorem Arena.Sound.returns (enough : 2 ^ 32 ≤ fuel) (rounds : size ≤ 2 ^ 64 - 16) :
    ∃ ptr after, kmalloc (traced allocPages) fuel size arena.heap = some (ptr, after) := by
  obtain ⟨⟨ptr, after⟩, returned⟩ := @kmalloc_returns _ _ _ fuel size _ _ _ contract sound.layout sound.held enough
    (by unfold heapAlign; omega)
  exact ⟨ptr, after, returned⟩

omit contract in
theorem Arena.Sound.exhausted (enough : 2 ^ 32 ≤ fuel) (absent : fitting need free = none)
    (refused : (allocPages (expandPages need) arena.heap.pmm.1).1 = 0) : Exhausted allocPages arena.heap fuel need := by
  have list := sound.layout.list
  have short := sound.layout.length_le
  obtain ⟨fit, walked⟩ := firstFit_returns need .head list.chain (show free.length < fuel by omega)
  rcases firstFit_some .head list.chain list.headers list.bounded walked with
    ⟨rfl, _⟩ | ⟨lower, block, upper, rfl, rfl, large, _⟩
  · exact ⟨walked, refused⟩
  · exact absurd (fitting_eq_none.mp absent block (by simp)) (by omega)

end

/-- The fill of a request that wraps runs over the end of the address space. -/
theorem kmallocLoop_overruns {allocPages : PageSource π} {heap after : State π} {fuel rounds ptr : Nat}
    (wraps : 2 ^ 64 - 16 < size)
    (returned : kmallocLoop allocPages fuel size heapAlign need rounds heap = some (ptr, after)) : ptr = 0 := by
  induction rounds generalizing heap with
  | zero => cases returned
  | succ rounds ih =>
    simp only [kmallocLoop, bind_eq_bind, bind_eq_some_iff] at returned
    obtain ⟨fit, _, returned⟩ := returned
    cases fit with
    | corrupt =>
      cases returned
      rfl
    | found link block =>
      obtain ⟨taken, _, returned⟩ := bind_eq_some_iff.mp returned
      have beyond : 2 ^ 64 ≤ block + headerSize + size := by
        unfold headerSize
        omega
      simp only [placePointer, Nat.lt_irrefl, if_false, if_pos beyond] at returned
      cases returned
    | absent =>
      obtain ⟨⟨expanded, grown⟩, _, returned⟩ := bind_eq_some_iff.mp returned
      cases expanded with
      | true => exact ih returned
      | false =>
        cases returned
        rfl

/-- The caller has the bytes asked for in the payload of the block, or null and an unchanged heap. -/
def Served (heap : State (π × List Span)) (size ptr : Nat) (after : State (π × List Span)) : Prop :=
  ptr ≠ 0 ∧ size ≤ sizeAt after.mem (ptr - headerSize) ∨
    ptr = 0 ∧ after.mem = heap.mem ∧ after.freeList = heap.freeList ∧ after.used = heap.used ∧
      after.total = heap.total ∧ after.pmm.1 = heap.pmm.1

theorem served_ptr {heap after : State (π × List Span)} {block : Nat} :
    Served heap size (block + headerSize) after ↔ size ≤ sizeAt after.mem block := by
  simp [Served, headerSize]

variable {pool : Nat → Prop} (lowest : ¬pool 0) {fuel : Nat} {boot heap : State (Pmm.State × List Span)}
  (fresh : boot.pmm.2 = []) (held : PmmOwns pool boot.pmm.1 [])
  (started : heapInit (traced pmmAllocPages) fuel boot = some (true, heap)) {requests : List Request}
  {arena : Arena Pmm.State} (run : Run (Arena.Step pmmAllocPages) ⟨heap, []⟩ requests arena)

include lowest fresh held started run in
/-- A request is served exactly when it leaves room for the rounding, the header and the rest of a
page, or when there is nothing to be had. A call may fail to return only if the rounding wraps. -/
theorem kmalloc_served_iff :
    ∃ free, arena.Consistent free ∧ ∀ fuel size, 2 ^ 32 ≤ fuel → size < 2 ^ 64 →
      (size ≤ 2 ^ 64 - 16 → ∃ ptr after, kmalloc (traced pmmAllocPages) fuel size arena.heap = some (ptr, after)) ∧
      ((∃ ptr after, kmalloc (traced pmmAllocPages) fuel size arena.heap = some (ptr, after) ∧
          Served arena.heap size ptr after) ↔
        size ≤ 2 ^ 64 - 4160 ∨ (∀ block ∈ free, block.size < needFor size heapAlign) ∧
          (pmmAllocPages heapExpandPages arena.heap.pmm.1).1 = 0) := by
  have contract := pmm_contract lowest
  obtain ⟨free, sound⟩ := Arena.Sound.reached contract fresh held started run
  refine ⟨free, sound.consistent, fun fuel size enough wide => ⟨sound.returns contract enough, ?_⟩⟩
  by_cases zero : size = 0
  · subst zero
    exact iff_of_true ⟨0, arena.heap, kmallocAligned_idle _ _ (.inr rfl), by simp [Served]⟩ (.inl (by decide))
  by_cases small : size ≤ 2 ^ 64 - 4160
  · obtain ⟨covers, fits⟩ := needFor_small small
    refine iff_of_true ?_ (.inl small)
    obtain ⟨ptr, after, returned⟩ := sound.returns contract enough (show size ≤ 2 ^ 64 - 16 by omega)
    refine ⟨ptr, after, returned, ?_⟩
    cases sound.answers contract zero wide returned with
    | fits _ room => exact served_ptr.mpr (Nat.le_trans covers room)
    | refused _ refused => exact .inr ⟨rfl, rfl, rfl, rfl, rfl, sound.held.refusal lowest refused⟩
    | grown _ _ _ _ room => exact served_ptr.mpr (Nat.le_trans covers room)
    | futile _ _ short => exact absurd (region_room _ fits) (Nat.not_le_of_lt short)
  · have pages := expandPages_wraps (show 2 ^ 64 - 4160 < size by omega) wide
    rw [← fitting_eq_none, ← pages, or_iff_right small]
    constructor
    · rintro ⟨ptr, after, returned, served⟩
      have tooSmall : ∀ {block : Nat}, sizeAt after.mem block < 2 ^ 32 →
          ¬Served arena.heap size (block + headerSize) after := by
        intro block bound served
        have room := served_ptr.mp served
        omega
      cases sound.answers contract zero wide returned with
      | fits _ _ bound => exact absurd served (tooSmall bound)
      | refused absent refused => exact ⟨absent, refused⟩
      | grown _ _ _ _ _ bound => exact absurd served (tooSmall bound)
      | futile _ _ _ grows =>
        rcases served with ⟨nonzero, _⟩ | ⟨_, _, _, _, same, _⟩
        · exact absurd rfl nonzero
        · omega
    · rintro ⟨absent, refused⟩
      have returned := (sound.exhausted enough absent refused).returns size heapAlign
      rw [← kmalloc_eq fuel sound.ready zero] at returned
      exact ⟨0, _, returned, .inr ⟨rfl, rfl, rfl, rfl, rfl, sound.held.refusal lowest refused⟩⟩

theorem kmalloc_served_hundred : ∃ (heap : State (Pmm.State × List Span)) (ptr : Nat) (after : State (Pmm.State × List Span)),
    heapInit (traced pmmAllocPages) 8 ⟨fun _ => 0, 0, 0, 0, false, smallPmm, []⟩ = some (true, heap) ∧
      kmalloc (traced pmmAllocPages) (2 ^ 32) 100 heap = some (ptr, after) ∧ Served heap 100 ptr after := by
  have starts : (heapInit (traced pmmAllocPages) 8 ⟨fun _ => 0, 0, 0, 0, false, smallPmm, []⟩).map Prod.fst = some true := by
    decide +kernel
  obtain ⟨⟨_, heap⟩, started, rfl⟩ := map_eq_some_iff.mp starts
  obtain ⟨_, _, calls⟩ := kmalloc_served_iff (by omega) rfl smallPmm_owns started (.done _)
  obtain ⟨ptr, after, returned, served⟩ := (calls (2 ^ 32) 100 (Nat.le_refl _) (by decide)).2.mpr (.inl (by decide))
  exact ⟨heap, ptr, after, started, returned, served⟩

/-- Asked for 2^64 - 100 bytes, the heap takes all pages and returns null. -/
theorem kmalloc_unserved : ∃ heap after : State (Pmm.State × List Span),
    heapInit (traced pmmAllocPages) 8 ⟨fun _ => 0, 0, 0, 0, false, smallPmm, []⟩ = some (true, heap) ∧
      kmalloc (traced pmmAllocPages) 8 (2 ^ 64 - 100) heap = some (0, after) ∧
        heap.total = 0x10000 ∧ after.total = 0x20000 := by
  have facts : (heapInit (traced pmmAllocPages) 8 ⟨fun _ => 0, 0, 0, 0, false, smallPmm, []⟩).bind (fun (started, heap) =>
      (kmalloc (traced pmmAllocPages) 8 (2 ^ 64 - 100) heap).map fun (null, after) =>
        (started, null, heap.total, after.total)) = some (true, 0, 0x10000, 0x20000) := by decide +kernel
  obtain ⟨⟨started, heap⟩, initial, facts⟩ := bind_eq_some_iff.mp facts
  obtain ⟨⟨null, after⟩, futile, facts⟩ := map_eq_some_iff.mp facts
  simp only [Prod.mk.injEq] at facts
  obtain ⟨rfl, rfl, before, total⟩ := facts
  exact ⟨heap, after, initial, futile, before, total⟩

/-- The block that serves a request after an expansion: the region, or the free block it was
joined to. -/
theorem Coalesces.fitting_addr {region : Block} {larger : List Block} (coalesces : Coalesces region free larger)
    (absent : fitting need free = none) (found : fitting need larger = some block) :
    (∃ next ∈ free, region.Joins next) ∧ block.addr = region.addr ∨
      (∀ other ∈ free, ¬other.Joins region) ∧ block.addr = region.addr ∨
      ∃ previous ∈ free, previous.Joins region ∧ block.addr = previous.addr := by
  have small := fitting_eq_none.mp absent
  obtain ⟨large, lower, upper, same, _⟩ := fitting_eq_some.mp found
  have listed : block ∈ larger := by simp [same]
  have new : ∀ {below above : List Block} {entry : Block}, (∀ other ∈ below ++ above, other.size < need) →
      block ∈ below ++ entry :: above → block = entry := by
    intro below above entry small listed
    simp only [List.mem_append, List.mem_cons] at listed small
    rcases listed with below | same | above
    · exact absurd (small block (.inl below)) (by omega)
    · exact same
    · exact absurd (small block (.inr above)) (by omega)
  have others : ∀ {below above : List Block} {entry : Block}, (∀ other ∈ below ++ entry :: above, other.size < need) →
      ∀ other ∈ below ++ above, other.size < need := by
    intro below above entry small other listed
    refine small other ?_
    simp only [List.mem_append, List.mem_cons] at listed ⊢
    exact listed.imp id .inr
  cases coalesces with
  | alone below above _ noPrevious => exact .inr (.inl ⟨noPrevious, by rw [new small listed]⟩)
  | next below above other joins => exact .inl ⟨⟨other, by simp, joins⟩, by rw [new (others small) listed]; rfl⟩
  | previous below above other joins =>
    exact .inr (.inr ⟨other, by simp, joins, by rw [new (others small) listed]; rfl⟩)

theorem FreeList.joins_unique {mem : Mem} {first : Nat} (list : FreeList mem first free) {one other : Block}
    (left : one ∈ free) (right : other ∈ free) (joins : one.Joins block) (also : other.Joins block) :
    one = other := by
  by_contra different
  have gap := list.apart left right different
  simp only [Span.Apart, Block.span_start, Block.span_size, Block.Joins, headerSize] at gap joins also
  omega

/-- The pointer will be a multiple of 16: the first block that fits has its payload there, or
there is neither block nor pages, or the region granted lies behind a free block with its payload
there. -/
def Falls (free : List Block) (pmm : Pmm.State) (size : Nat) : Prop :=
  let need := needFor size heapAlign
  match fitting need free with
  | some block => heapAlign ∣ block.addr + headerSize
  | none =>
    let region := regionBlock (pmmAllocPages (expandPages need) pmm).1 (expandPages need)
    region.addr = 0 ∨ 2 ^ 64 - 4160 < size ∧ size ≤ 2 ^ 64 - 16 ∨
      ∃ previous ∈ free, previous.Joins region ∧ heapAlign ∣ previous.addr + headerSize

theorem region_misaligned {addr : Nat} (whole : pageSize ∣ addr) : ¬heapAlign ∣ addr + headerSize := by
  simp only [pageSize, heapAlign, headerSize] at *
  omega

include lowest fresh held started run in
/-- In every state of a run, `kmalloc` returns no pointer but a multiple of 16 exactly when the
blocks fall so, or when the rounding wraps and it returns none at all. -/
theorem kmalloc_aligned_iff :
    ∃ free, arena.Consistent free ∧ ∀ fuel size, 2 ^ 32 ≤ fuel → size < 2 ^ 64 →
      (size ≤ 2 ^ 64 - 16 → ∃ ptr after, kmalloc (traced pmmAllocPages) fuel size arena.heap = some (ptr, after)) ∧
      ((∀ ptr after, kmalloc (traced pmmAllocPages) fuel size arena.heap = some (ptr, after) → ptr ≠ 0 →
          heapAlign ∣ ptr) ↔
        size = 0 ∨ 2 ^ 64 - 16 < size ∨ Falls free arena.heap.pmm.1 size) := by
  have contract := pmmStacks_contract lowest
  obtain ⟨free, sound⟩ := Arena.Sound.reached contract fresh ⟨held, by simp⟩ started run
  refine ⟨free, sound.consistent, fun fuel size enough wide => ⟨sound.returns contract enough, ?_⟩⟩
  by_cases zero : size = 0
  · subst zero
    refine iff_of_true (fun ptr after returned some => ?_) (.inl rfl)
    cases (kmallocAligned_idle _ _ (.inr rfl)).symm.trans returned
    exact absurd rfl some
  by_cases wraps : 2 ^ 64 - 16 < size
  · refine iff_of_true (fun ptr after returned some => absurd ?_ some) (.inr (.inl wraps))
    rw [kmalloc_eq fuel sound.ready zero] at returned
    exact kmallocLoop_overruns wraps returned
  rw [or_iff_right zero, or_iff_right wraps]
  obtain ⟨ptr, after, returned⟩ := sound.returns contract enough (Nat.not_lt.mp wraps)
  have answer := sound.answers contract zero wide returned
  have only : (∀ ptr after, kmalloc (traced pmmAllocPages) fuel size arena.heap = some (ptr, after) → ptr ≠ 0 →
      heapAlign ∣ ptr) ↔ (ptr ≠ 0 → heapAlign ∣ ptr) := by
    refine ⟨fun all => all ptr after returned, fun one other final again => ?_⟩
    cases returned.symm.trans again
    exact one
  rw [only]
  have nonzero : ∀ block, block + headerSize ≠ 0 := by simp [headerSize]
  simp only [Falls]
  cases answer with
  | fits found _ _ => simp only [found, nonzero, ne_eq, not_false_eq_true, forall_const]
  | refused absent refused => simp [absent, regionBlock, refused]
  | futile absent _ short =>
    simp only [absent, ne_eq, not_true_eq_false, false_implies, true_iff]
    refine .inr (.inl (by_contra fun usual => ?_))
    exact absurd (region_room _ (needFor_usual wide usual)) (Nat.not_le_of_lt short)
  | grown absent granted coalesces found room bound =>
    simp only [absent, nonzero, ne_eq, not_false_eq_true, forall_const]
    have usual : ¬(2 ^ 64 - 4160 < size ∧ size ≤ 2 ^ 64 - 16) := by
      intro unusual
      have huge := (needFor_large unusual.1 unusual.2).1
      omega
    rcases coalesces.fitting_addr absent found with
      ⟨⟨next, listed, joins⟩, _⟩ | ⟨noPrevious, same⟩ | ⟨previous, listed, joins, same⟩
    · obtain ⟨_, apart, _⟩ := contract.grant sound.held granted
      exact absurd joins (sound.layout.region_unjoined (expandPages_pos _) apart (sound.held.onward granted) next listed)
    · rw [same]
      refine iff_of_false (region_misaligned (pmmAllocPages_whole _ _)) ?_
      rintro (null | unusual | ⟨previous, listed, joins, _⟩)
      · exact granted null
      · exact usual unusual
      · exact noPrevious previous listed joins
    · rw [same]
      refine ⟨fun aligned => .inr (.inr ⟨previous, listed, joins, aligned⟩), ?_⟩
      rintro (null | unusual | ⟨other, member, also, aligned⟩)
      · exact absurd null granted
      · exact absurd unusual usual
      · rwa [sound.layout.list.joins_unique listed member joins also]

theorem kmalloc_aligned_second : ∃ (heap : State (Pmm.State × List Span)) (arena : Arena Pmm.State) (free : List Block),
    heapInit (traced pmmAllocPages) 8 ⟨fun _ => 0, 0, 0, 0, false, smallPmm, []⟩ = some (true, heap) ∧
      Run (Arena.Step pmmAllocPages) ⟨heap, []⟩ [.allocate 16 16] arena ∧ arena.Consistent free ∧
      ((∀ ptr after, kmalloc (traced pmmAllocPages) (2 ^ 32) 16 arena.heap = some (ptr, after) → ptr ≠ 0 →
        heapAlign ∣ ptr) ↔ Falls free arena.heap.pmm.1 16) := by
  have facts : (Arena.replay pmmAllocPages 8 smallPmm [.allocate 16 16]).isSome := by decide +kernel
  obtain ⟨arena, replayed⟩ := isSome_iff_exists.mp facts
  obtain ⟨heap, started, run⟩ := Arena.replay_run _ _ replayed
  obtain ⟨free, consistent, calls⟩ := kmalloc_aligned_iff (by omega) rfl smallPmm_owns started run
  exact ⟨heap, arena, free, started, run, consistent, by simpa using (calls (2 ^ 32) 16 (Nat.le_refl _) (by decide)).2⟩

/-- The first pointer of a fresh heap is not a multiple of 16. -/
theorem kmalloc_misaligned : ∃ heap after : State (Pmm.State × List Span),
    heapInit (traced pmmAllocPages) 8 ⟨fun _ => 0, 0, 0, 0, false, smallPmm, []⟩ = some (true, heap) ∧
      kmalloc (traced pmmAllocPages) 8 1 heap = some (0x100018, after) ∧ ¬16 ∣ 0x100018 := by
  have facts : (heapInit (traced pmmAllocPages) 8 ⟨fun _ => 0, 0, 0, 0, false, smallPmm, []⟩).bind (fun (started, heap) =>
      (kmalloc (traced pmmAllocPages) 8 1 heap).map fun (ptr, _) => (started, ptr)) = some (true, 0x100018) := by
    decide +kernel
  obtain ⟨⟨started, heap⟩, initial, facts⟩ := bind_eq_some_iff.mp facts
  obtain ⟨⟨ptr, after⟩, returned, facts⟩ := map_eq_some_iff.mp facts
  simp only [Prod.mk.injEq] at facts
  obtain ⟨rfl, rfl⟩ := facts
  exact ⟨heap, after, initial, returned, by decide⟩

end GWKernel.Heap
