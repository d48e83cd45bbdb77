import GWKernel.Proofs.HeapLeases

/-! Neighbours on the free list. `insert_free` joins a block to the next one or else to the
previous one, and between two free neighbours it leaves a seam. Everything else keeps free blocks
apart. -/

namespace GWKernel.Heap
open Lib Pmm List

variable {π : Type}

/-- No entry ends where another begins. -/
def Separate (free : List Block) : Prop := ∀ one ∈ free, ∀ other ∈ free, ¬one.Joins other

def Wedged (free : List Block) (block : Block) : Prop :=
  (∃ previous ∈ free, previous.Joins block) ∧ ∃ next ∈ free, block.Joins next

theorem Block.not_joins_self (block : Block) : ¬block.Joins block := by
  simp only [Block.Joins, headerSize]
  omega

theorem merge_joins {first second other : Block} (joins : first.Joins second) :
    (first.merge second).Joins other ↔ second.Joins other := by
  simp only [Block.Joins, Block.merge] at *
  omega

theorem Separate.subset {free fewer : List Block} (separate : Separate free) (subset : fewer ⊆ free) : Separate fewer :=
  fun one left other right => separate one (subset left) other (subset right)

theorem separate_middle {lower upper : List Block} {block : Block} (separate : Separate (lower ++ upper))
    (noNext : ∀ other ∈ lower ++ upper, ¬block.Joins other) (noPrevious : ∀ other ∈ lower ++ upper, ¬other.Joins block) :
    Separate (lower ++ block :: upper) := by
  have known : ∀ {entry}, entry ∈ lower ++ block :: upper → entry = block ∨ entry ∈ lower ++ upper := by
    intro entry listed
    simp only [mem_append, mem_cons] at listed ⊢
    exact or_left_comm.mp listed
  intro one left other right
  rcases known left with rfl | before
  · rcases known right with rfl | behind
    · exact Block.not_joins_self _
    · exact noNext other behind
  · rcases known right with rfl | behind
    · exact noPrevious one before
    · exact separate one before other behind

private theorem without_subset {lower upper : List Block} {block : Block} : lower ++ upper ⊆ lower ++ block :: upper := by
  intro entry listed
  simp only [mem_append, mem_cons] at listed ⊢
  exact listed.imp id .inr

theorem Coalesces.separate_iff {block : Block} {free after : List Block} (coalesces : Coalesces block free after)
    (separate : Separate free) : Separate after ↔ ¬Wedged free block := by
  cases coalesces with
  | alone lower upper noNext noPrevious =>
    refine iff_of_true (separate_middle separate noNext noPrevious) ?_
    rintro ⟨_, next, listed, joins⟩
    exact noNext next listed joins
  | next lower upper other joins =>
    have rest := separate.subset (@without_subset lower upper other)
    constructor
    · rintro seamless ⟨⟨previous, listed, touches⟩, _⟩
      have remains : previous ∈ lower ++ block.merge other :: upper := by
        simp only [mem_append, mem_cons] at listed ⊢
        refine listed.imp id (Or.imp ?_ id)
        rintro rfl
        simp only [Block.Joins, headerSize] at joins touches
        omega
      exact seamless previous remains (block.merge other) (by simp) touches
    · intro free'
      refine separate_middle rest (fun entry listed touches => ?_) fun entry listed touches => ?_
      · exact separate other (by simp) entry (without_subset listed) ((merge_joins joins).mp touches)
      · exact free' ⟨⟨entry, without_subset listed, touches⟩, other, by simp, joins⟩
  | previous lower upper other joins noNext =>
    have rest := separate.subset (@without_subset lower upper other)
    refine iff_of_true (separate_middle rest (fun entry listed touches => ?_) fun entry listed touches => ?_) ?_
    · exact noNext entry (without_subset listed) ((merge_joins joins).mp touches)
    · exact separate entry (without_subset listed) other (by simp) touches
    · rintro ⟨_, next, listed, touches⟩
      exact noNext next listed touches

theorem Carves.separate {need : Nat} {lower upper free : List Block} {block taken : Block}
    (carves : Carves need block (lower ++ upper) taken free) (separate : Separate (lower ++ block :: upper)) :
    Separate free := by
  have rest := separate.subset (@without_subset lower upper block)
  cases carves with
  | whole => exact rest
  | split large returned =>
    refine (returned.separate_iff rest).mpr ?_
    rintro ⟨_, next, listed, joins⟩
    refine separate block (by simp) next (without_subset listed) ?_
    simp only [Block.Joins] at joins ⊢
    omega

/-- A block that is freed does not lie between two free ones. -/
def Arena.Careful (arena : Arena π) : Request → Prop
  | .free ptr => ∀ lease ∈ arena.leases, lease.ptr = ptr → ∀ free, arena.Consistent free → ¬Wedged free lease.block
  | _ => True

/-- The steps of a run in which every block is freed carefully. -/
def Arena.CarefulStep (allocPages : PageSource π) (arena : Arena π) (request : Request) (later : Arena π) : Prop :=
  Arena.Step allocPages arena request later ∧ arena.Careful request

section
variable {allocPages : PageSource π} {owns : π → List Span → Prop} {arena later : Arena π} {free : List Block}
  (contract : PageContract allocPages owns)
  (onward : ∀ {pmm : π} {regions : List Span} {pages : Nat}, owns pmm regions → (allocPages pages pmm).1 ≠ 0 →
    ∀ old ∈ regions, (allocPages pages pmm).1 + pages * pageSize ≠ old.start)
include contract onward

theorem expandHeap_separate {heap after : State (π × List Span)} {owned : List Owned} {fuel need : Nat}
    (layout : Layout heap [] free owned) (held : owns heap.pmm.1 heap.pmm.2) (separate : Separate free)
    (grown : expandHeap (traced allocPages) fuel need heap = some (true, after)) :
    ∃ larger, Layout after [] larger owned ∧ owns after.pmm.1 after.pmm.2 ∧ Separate larger := by
  by_cases refused : (allocPages (expandPages need) heap.pmm.1).1 = 0
  · cases ((expandHeap_refused contract held refused).1 fuel).symm.trans grown
  · obtain ⟨-, larger, kept, coalesces, _, owned, _⟩ := expandHeap_grown contract layout held refused grown
    obtain ⟨_, fresh, _⟩ := contract.grant held refused
    refine ⟨larger, kept, owned, (coalesces.separate_iff separate).mpr ?_⟩
    rintro ⟨_, next, listed, joins⟩
    exact layout.region_unjoined (expandPages_pos need) fresh (onward held refused) next listed joins

theorem kmallocLoop_separate {heap after : State (π × List Span)} {owned : List Owned} {fuel size align rounds ptr : Nat}
    (layout : Layout heap [] free owned) (held : owns heap.pmm.1 heap.pmm.2) (separate : Separate free)
    (covered : Covered size align)
    (returned : kmallocLoop (traced allocPages) fuel size (effectiveAlign align) (needFor size align) rounds heap =
      some (ptr, after)) : ∃ rest, FreeList after.mem after.freeList rest ∧ Separate rest := by
  induction rounds generalizing heap free with
  | zero => cases returned
  | succ rounds ih =>
    rcases kmallocLoop_cases layout returned with
      ⟨lower, block, upper, taking, rfl, _, large, took, served⟩ | ⟨_, expanded, larger, grown, returned⟩
    · obtain ⟨rest, taken, kept, header, carves, _⟩ := takeBlock_layout layout large took
      have room := carves.room large
      rw [← carves.addr] at served
      have full := (handOut_layout kept header covered room).1
      rw [← served] at full
      exact ⟨rest, full.list, carves.separate separate⟩
    · cases expanded with
      | true =>
        obtain ⟨more, kept, held, separate⟩ := expandHeap_separate contract onward layout held separate grown
        exact ih kept held separate returned
      | false =>
        cases returned
        by_cases refused : (allocPages (expandPages (needFor size align)) heap.pmm.1).1 = 0
        · cases ((expandHeap_refused contract held refused).1 fuel).symm.trans grown
          exact ⟨free, layout.list, separate⟩
        · cases expandHeap_granted refused grown

theorem heapInit_separate {fuel : Nat} {boot heap : State (π × List Span)} (fresh : boot.pmm.2 = [])
    (held : owns boot.pmm.1 []) (started : heapInit (traced allocPages) fuel boot = some (true, heap)) :
    ∃ free, FreeList heap.mem heap.freeList free ∧ Separate free := by
  simp only [heapInit, Option.bind_eq_bind, Option.bind_eq_some_iff] at started
  obtain ⟨⟨expanded, after⟩, grown, started⟩ := started
  cases expanded with
  | false => simp at started
  | true =>
    obtain ⟨free, layout, _, separate⟩ := expandHeap_separate contract onward (blank_layout fresh)
      (by simpa only [fresh] using held) (fun _ listed => absurd listed not_mem_nil) grown
    simp only [if_true, Option.some.injEq, Prod.mk.injEq, true_and] at started
    subst started
    exact ⟨free, layout.list, separate⟩

theorem Arena.Sound.separate_allocate (sound : arena.Sound owns free) (separate : Separate free)
    {fuel size align ptr : Nat} {after : State (π × List Span)}
    (fair : Covered size align ∨ Exhausted allocPages arena.heap fuel (needFor size align))
    (returned : kmallocAligned (traced allocPages) fuel size align arena.heap = some (ptr, after)) :
    ∃ rest, FreeList after.mem after.freeList rest ∧ Separate rest := by
  by_cases zero : size = 0
  · rw [kmallocAligned_idle align fuel (.inr zero)] at returned
    cases returned
    exact ⟨free, sound.layout.list, separate⟩
  rw [kmallocAligned_eq align fuel sound.ready zero] at returned
  rcases fair with covered | exhausted
  · exact kmallocLoop_separate contract onward sound.layout sound.held separate covered returned
  · rw [exhausted.returns] at returned
    cases returned
    exact ⟨free, sound.layout.list, separate⟩

theorem Arena.CarefulStep.separate {request : Request} (moves : Arena.CarefulStep allocPages arena request later)
    (before : ∃ free, arena.Sound owns free ∧ Separate free) : ∃ rest, later.Sound owns rest ∧ Separate rest := by
  obtain ⟨moves, careful⟩ := moves
  obtain ⟨free, sound, separate⟩ := before
  cases moves with
  | allocate fair returned =>
    obtain ⟨⟨rest, kept⟩, -⟩ := sound.allocate contract fair returned
    obtain ⟨other, list, separate⟩ := sound.separate_allocate contract onward separate fair returned
    obtain rfl := kept.layout.list.unique list
    exact ⟨rest, kept, separate⟩
  | @free _ lease _ held clear returned =>
    obtain ⟨-, rest, coalesces, kept⟩ := sound.released held clear returned
    exact ⟨rest, kept, (coalesces.separate_iff separate).mpr (careful lease held rfl free sound.consistent)⟩
  | write held low high => exact ⟨free, sound.write held low high, separate⟩

end

theorem Arena.Consistent.whole {arena : Arena π} {free : List Block} (consistent : arena.Consistent free)
    (separate : Separate free) (idle : arena.leases = []) {span : Span} (maximal : MaximalRange arena.heap.pmm.2 span) :
    ∃ block ∈ free, block.span = span := by
  have tiles := consistent.tiles
  rw [idle, map_nil, append_nil] at tiles
  refine List.mem_map.mp (tiles.maximal ?_ maximal)
  intro one left other right touches
  obtain ⟨first, listed, rfl⟩ := List.mem_map.mp left
  obtain ⟨second, member, rfl⟩ := List.mem_map.mp right
  refine separate first listed second member ?_
  simp only [Block.span_start, Block.span_size, Block.Joins] at touches ⊢
  omega

/-- In a run that never frees a block between two free ones no two free blocks touch, and once all
is freed each contiguous range is one block. The next `kfree` leaves a seam exactly if its block
lies between two free ones. -/
theorem free_blocks_separate {pool : Nat → Prop} (lowest : ¬pool 0) {fuel : Nat}
    {boot heap : State (Pmm.State × List Span)} (fresh : boot.pmm.2 = []) (held : PmmOwns pool boot.pmm.1 [])
    (started : heapInit (traced pmmAllocPages) fuel boot = some (true, heap)) {requests : List Request}
    {arena : Arena Pmm.State} (run : Run (Arena.CarefulStep pmmAllocPages) ⟨heap, []⟩ requests arena) :
    ∃ free, arena.Consistent free ∧ Separate free ∧
      (arena.leases = [] → ∀ span, MaximalRange arena.heap.pmm.2 span → ∃ block ∈ free, block.span = span) ∧
      ∀ lease ∈ arena.leases, lease.Clear arena.heap.mem → ∀ fuel after, kfree fuel lease.ptr arena.heap = some after →
        ∃ rest, Arena.Consistent ⟨after, arena.leases.erase lease⟩ rest ∧ (Separate rest ↔ ¬Wedged free lease.block) := by
  have contract := pmmStacks_contract lowest
  have onward : ∀ {pmm : Pmm.State} {regions : List Span} {pages : Nat}, PmmStacks pool pmm regions →
      (pmmAllocPages pages pmm).1 ≠ 0 → ∀ old ∈ regions, (pmmAllocPages pages pmm).1 + pages * pageSize ≠ old.start :=
    fun piled granted => piled.onward granted
  have piled : PmmStacks pool boot.pmm.1 [] := ⟨held, by simp⟩
  have initial : ∃ free, Arena.Sound (PmmStacks pool) ⟨heap, []⟩ free ∧ Separate free := by
    obtain ⟨free, sound⟩ := Arena.Sound.reached contract fresh piled started (.done _)
    obtain ⟨other, list, separate⟩ := heapInit_separate contract onward fresh piled started
    obtain rfl := sound.layout.list.unique list
    exact ⟨free, sound, separate⟩
  obtain ⟨free, sound, separate⟩ := run.preserves (fun _ _ _ before moves => moves.separate contract onward before) initial
  refine ⟨free, sound.consistent, separate, fun idle span maximal => sound.consistent.whole separate idle maximal, ?_⟩
  intro lease live clear fuel after returned
  obtain ⟨-, rest, coalesces, kept⟩ := sound.released live clear returned
  exact ⟨rest, kept.consistent, coalesces.separate_iff separate⟩

theorem free_blocks_separate_one :
    ∃ (heap : State (Pmm.State × List Span)) (arena : Arena Pmm.State) (free : List Block),
      heapInit (traced pmmAllocPages) 8 ⟨fun _ => 0, 0, 0, 0, false, smallPmm, []⟩ = some (true, heap) ∧
      Run (Arena.CarefulStep pmmAllocPages) ⟨heap, []⟩ [.allocate 32 16, .free 0x100018] arena ∧
      arena.Consistent free ∧ ∃ block ∈ free, block.span = ⟨0x100000, 0x10000⟩ := by
  have facts : (Arena.replay pmmAllocPages 8 smallPmm [.allocate 32 16]).bind (fun middle =>
      (middle.next pmmAllocPages 8 (.free 0x100018)).map fun arena =>
        (middle.leases, middle.heap.pmm.2, arena.leases, arena.heap.pmm.2)) =
      some ([⟨0x100018, 32, 0x100000, 32⟩], [⟨0x100000, 0x10000⟩], [], [⟨0x100000, 0x10000⟩]) := by decide +kernel
  obtain ⟨middle, replayed, facts⟩ := Option.bind_eq_some_iff.mp facts
  obtain ⟨arena, moved, facts⟩ := Option.map_eq_some_iff.mp facts
  simp only [Prod.mk.injEq] at facts
  obtain ⟨leases, before, idle, regions⟩ := facts
  obtain ⟨heap, started, run⟩ := Arena.replay_run _ _ replayed
  have careful : middle.Careful (.free 0x100018) := by
    rintro lease listed - free consistent ⟨⟨previous, member, joins⟩, _⟩
    rw [leases, mem_singleton] at listed
    subst listed
    have low := @Tiles.le_block _ _ 0x100000 consistent.tiles (by simp [before]) _
      (mem_append_left _ (List.mem_map_of_mem member))
    simp only [Block.span_start, Block.Joins, headerSize] at low joins
    omega
  have whole : Run (Arena.CarefulStep pmmAllocPages) ⟨heap, []⟩ [.allocate 32 16, .free 0x100018] arena := by
    cases run with
    | next first rest =>
      cases rest
      exact .next ⟨first, trivial⟩ (.next ⟨Arena.next_step _ _ moved, careful⟩ (.done _))
  obtain ⟨free, consistent, _, single, _⟩ := free_blocks_separate (by omega) rfl smallPmm_owns started whole
  refine ⟨heap, arena, free, started, whole, consistent, single idle _ ?_⟩
  rw [regions]
  exact ⟨by decide, fun address holds => ⟨_, mem_cons_self, holds⟩, by simp [Span.Holds], by simp [Span.Holds]⟩

/-- Four neighbours, freed in the order first, third, second, fourth: the region is not one block.
-/
theorem free_blocks_touch :
    ∃ (heap : State (Pmm.State × List Span)) (arena : Arena Pmm.State),
      heapInit (traced pmmAllocPages) 8 ⟨fun _ => 0, 0, 0, 0, false, smallPmm, []⟩ = some (true, heap) ∧
      Run (Arena.Step pmmAllocPages) ⟨heap, []⟩ [.allocate 32 16, .allocate 32 16, .allocate 32 16, .allocate 32 16,
        .free 0x100018, .free 0x100088, .free 0x100050, .free 0x1000C0] arena ∧
      arena.leases = [] ∧ arena.heap.pmm.2 = [⟨0x100000, 0x10000⟩] ∧ arena.heap.freeList = 0x100000 ∧
      sizeAt arena.heap.mem 0x100000 = 32 ∧ nextAt arena.heap.mem 0x100000 = 0x100000 + headerSize + 32 := by
  have facts : (Arena.replay pmmAllocPages 8 smallPmm [.allocate 32 16, .allocate 32 16, .allocate 32 16,
      .allocate 32 16, .free 0x100018, .free 0x100088, .free 0x100050, .free 0x1000C0]).map (fun arena =>
        (arena.leases, arena.heap.pmm.2, arena.heap.freeList, sizeAt arena.heap.mem 0x100000,
          nextAt arena.heap.mem 0x100000)) =
      some ([], [⟨0x100000, 0x10000⟩], 0x100000, 32, 0x100038) := by decide +kernel
  obtain ⟨arena, replayed, facts⟩ := Option.map_eq_some_iff.mp facts
  simp only [Prod.mk.injEq] at facts
  obtain ⟨heap, started, run⟩ := Arena.replay_run _ _ replayed
  exact ⟨heap, arena, started, run, facts⟩

end GWKernel.Heap
