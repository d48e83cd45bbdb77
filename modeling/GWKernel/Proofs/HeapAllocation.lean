import GWKernel.Proofs.HeapInsert

/-! Search, splitting and expansion: each keeps the heap a tiling of the regions
that the page allocator has granted. -/

namespace GWKernel.Heap
open Lib Pmm List
open Option (bind_eq_bind bind_eq_some_iff bind_some)

variable {π : Type}

/-- `pmm_alloc_pages` with a record of the regions it granted. -/
def traced (allocPages : PageSource π) : PageSource (π × List Span) := fun pages state =>
  let (phys, pmm) := allocPages pages state.1
  (phys, pmm, if phys = 0 then state.2 else ⟨phys, pages * pageSize⟩ :: state.2)

/-- What the heap needs of the page allocator: a granted region is below 4 GiB and disjoint from
those granted before. -/
structure PageContract (allocPages : PageSource π) (owns : π → List Span → Prop) : Prop where
  refuse : ∀ {pmm regions pages}, owns pmm regions → (allocPages pages pmm).1 = 0 →
    owns (allocPages pages pmm).2 regions
  grant : ∀ {pmm regions pages}, owns pmm regions → (allocPages pages pmm).1 ≠ 0 →
    (allocPages pages pmm).1 + pages * pageSize ≤ 2 ^ 32 ∧
    (∀ old ∈ regions, old.Apart ⟨(allocPages pages pmm).1, pages * pageSize⟩) ∧
    owns (allocPages pages pmm).2 (⟨(allocPages pages pmm).1, pages * pageSize⟩ :: regions)

structure Owned where
  block : Block
  requested : Nat
deriving DecidableEq, Repr

def spansOf (hand free : List Block) (owned : List Owned) : List Span :=
  hand.map Block.span ++ (free.map Block.span ++ owned.map fun own => own.block.span)

structure Granted (regions : List Span) : Prop where
  positive : ∀ region ∈ regions, 1 ≤ region.start
  below : ∀ region ∈ regions, region.start + region.size ≤ 2 ^ 32
  apart : regions.Pairwise Span.Apart

/-- The granted regions are tiled by the free blocks, the blocks of the allocations and those the
code has in its hands. -/
structure Layout (heap : State (π × List Span)) (hand free : List Block) (owned : List Owned) : Prop where
  list : FreeList heap.mem heap.freeList free
  headers : ∀ own ∈ owned, Header heap.mem heapMagicAlloc own.block
  room : ∀ own ∈ owned, own.requested ≤ own.block.size
  tiles : Tiles (spansOf hand free owned) heap.pmm.2
  granted : Granted heap.pmm.2
  used : heap.used = totalSize (owned.map fun own => own.block.span)
  total : heap.total = totalSize heap.pmm.2
  balance : totalSize (spansOf hand free owned) = totalSize heap.pmm.2

section
variable {heap : State (π × List Span)} {hand free : List Block} {owned : List Owned} {block : Block}

theorem mem_spansOf_hand (member : block ∈ hand) : block.span ∈ spansOf hand free owned :=
  mem_append_left _ (List.mem_map_of_mem member)

theorem mem_spansOf_free (member : block ∈ free) : block.span ∈ spansOf hand free owned :=
  mem_append_right _ (mem_append_left _ (List.mem_map_of_mem member))

theorem mem_spansOf_owned {own : Owned} (member : own ∈ owned) : own.block.span ∈ spansOf hand free owned :=
  mem_append_right _ (mem_append_right _ (List.mem_map.mpr ⟨own, member, rfl⟩))

section
variable (layout : Layout heap hand free owned)
include layout

theorem Layout.bounded (member : block.span ∈ spansOf hand free owned) :
    block.Bounded := by
  have low := layout.tiles.le_block layout.granted.positive member
  have high := layout.tiles.block_le layout.granted.below member
  simp only [Block.span_start, Block.span_size] at low high
  exact ⟨low, by omega⟩

theorem Layout.sum_le : totalSize heap.pmm.2 ≤ 2 ^ 32 :=
  totalSize_le layout.granted.apart layout.granted.below

omit layout in
private theorem length_le_totalSize (blocks : List Block) : 24 * blocks.length ≤ totalSize (blocks.map Block.span) := by
  induction blocks with
  | nil => simp
  | cons block blocks ih =>
    simp only [length_cons, map_cons, totalSize_cons, Block.span_size, headerSize]
    omega

theorem Layout.length_le : free.length ≤ 2 ^ 28 := by
  have sum := layout.sum_le
  have counted := length_le_totalSize free
  rw [← layout.balance] at sum
  simp only [spansOf, totalSize_append] at sum
  omega

omit layout in
theorem Layout.hand_apart (layout : Layout heap (block :: hand) free owned) :
    ∀ span ∈ spansOf hand free owned, block.span.Apart span :=
  (pairwise_cons.mp layout.tiles.apart).1

omit layout in
theorem Layout.write_hand {mem : Mem} (layout : Layout heap (block :: hand) free owned)
    (changes : Mem.ChangesOnly [block.span] heap.mem mem) : Layout { heap with mem } (block :: hand) free owned := by
  have away := layout.hand_apart
  refine ⟨layout.list.changes changes ?_, ?_, layout.room, layout.tiles, layout.granted, layout.used, layout.total,
    layout.balance⟩
  · intro other member span changed
    rw [mem_singleton.mp changed]
    exact away _ (mem_spansOf_free member)
  · intro own member
    refine (layout.headers own member).frame (header_agree changes ?_)
    intro span changed
    rw [mem_singleton.mp changed]
    exact away _ (mem_spansOf_owned member)

theorem Layout.repaged (pmm : π) :
    Layout { heap with pmm := (pmm, heap.pmm.2) } hand free owned :=
  ⟨layout.list, layout.headers, layout.room, layout.tiles, layout.granted, layout.used, layout.total, layout.balance⟩

end

theorem Layout.unlink {lower upper : List Block} (layout : Layout heap hand (lower ++ block :: upper) owned) :
    Layout (heap.store (linkAfter .head lower) (nextAt heap.mem block.addr)) (block :: hand) (lower ++ upper) owned ∧
      Header (heap.store (linkAfter .head lower) (nextAt heap.mem block.addr)).mem heapMagicFree block := by
  obtain ⟨chain, headers, sorted, bounded⟩ := layout.list
  obtain ⟨_, front, _, back⟩ := seg_append.mp chain
  have subset : ∀ other ∈ lower ++ upper, other ∈ lower ++ block :: upper := by
    intro other member
    simp only [mem_append, mem_cons] at member ⊢
    exact member.elim .inl (fun above => .inr (.inr above))
  have changes := store_changes heap lower (nextAt heap.mem block.addr)
  have order : (spansOf hand (lower ++ block :: upper) owned).Perm (spansOf (block :: hand) (lower ++ upper) owned) := by
    simp only [spansOf, map_append, map_cons, append_assoc, cons_append]
    rw [← append_assoc, ← append_assoc]
    exact perm_middle
  have tiles := layout.tiles.perm order
  have away : ∀ span ∈ spansOf hand (lower ++ upper) owned, block.span.Apart span :=
    (pairwise_cons.mp tiles.apart).1
  have lowerFree : ∀ span ∈ lower.map Block.span, span ∈ (lower ++ block :: upper).map Block.span := by
    intro span member
    rw [map_append]
    exact mem_append_left _ member
  refine ⟨⟨?_, ?_, layout.room, ?_, ?_, ?_, ?_, ?_⟩, ?_⟩
  · exact FreeList.store front back (fun other member => headers other (subset other member))
      (sorted.sublist (by simp)) (fun other member => bounded other (subset other member)) (nextAt_lt _ _)
  · intro own member
    refine (layout.headers own member).frame (header_agree changes ?_)
    intro span changed
    have apart := (pairwise_append.mp (pairwise_append.mp layout.tiles.apart).2.1).2.2
    exact apart span (lowerFree span changed) own.block.span (List.mem_map.mpr ⟨own, member, rfl⟩)
  · rwa [store_pmm]
  · rw [store_pmm]
    exact layout.granted
  · rw [store_used]
    exact layout.used
  · rw [store_total, store_pmm]
    exact layout.total
  · rw [store_pmm, ← layout.balance]
    exact (totalSize_perm order).symm
  · refine (headers block (by simp)).frame (header_agree changes ?_)
    intro span changed
    obtain ⟨other, member, rfl⟩ := List.mem_map.mp changed
    exact (away _ (mem_spansOf_free (mem_append_left _ member))).symm

theorem Layout.cut {left right : Nat} (layout : Layout heap (block :: hand) free owned)
    (size : block.size = left + (headerSize + right)) :
    Layout heap (⟨block.addr + headerSize + left, right⟩ :: ⟨block.addr, left⟩ :: hand) free owned := by
  have positive : 0 < headerSize := by decide
  have whole : block.span = ⟨block.addr, (headerSize + left) + (headerSize + right)⟩ := by
    simp only [Block.span, Span.mk.injEq, true_and]
    omega
  have tiles := layout.tiles
  have balance := layout.balance
  simp only [spansOf, map_cons, cons_append, whole, totalSize_cons] at tiles balance
  have pieces := (tiles.split (by omega) (by omega)).perm (List.Perm.swap _ _ _)
  refine ⟨layout.list, layout.headers, layout.room, ?_, layout.granted, layout.used, layout.total, ?_⟩
  · simpa only [spansOf, map_cons, cons_append, Block.span, Nat.add_assoc] using pieces
  · simp only [spansOf, map_cons, cons_append, totalSize_cons, Block.span_size]
    omega

theorem Layout.own (requested : Nat) (layout : Layout heap (block :: hand) free owned)
    (header : Header heap.mem heapMagicAlloc block) (room : requested ≤ block.size) :
    Layout { heap with used := u64 (heap.used + (block.size + headerSize)) } hand free (⟨block, requested⟩ :: owned) := by
  have order : (spansOf (block :: hand) free owned).Perm (spansOf hand free (⟨block, requested⟩ :: owned)) := by
    simp only [spansOf, map_cons, cons_append]
    rw [← append_assoc, ← append_assoc]
    exact perm_middle.symm
  have sum := layout.sum_le
  rw [← layout.balance] at sum
  simp only [spansOf, map_cons, cons_append, totalSize_cons, totalSize_append, Block.span_size] at sum
  refine ⟨layout.list, ?_, ?_, layout.tiles.perm order, layout.granted, ?_, layout.total, ?_⟩
  · intro own member
    rcases mem_cons.mp member with rfl | member
    · exact header
    · exact layout.headers own member
  · intro own member
    rcases mem_cons.mp member with rfl | member
    · exact room
    · exact layout.room own member
  · simp only [map_cons, totalSize_cons, Block.span_size, layout.used, u64]
    omega
  · rw [← totalSize_perm order, layout.balance]

theorem Layout.disown {own : Owned} {others : List Owned} (layout : Layout heap hand free owned)
    (same : owned.Perm (own :: others)) :
    Layout { heap with used := heap.used - (own.block.size + headerSize) } (own.block :: hand) free others := by
  have order : (spansOf hand free owned).Perm (spansOf (own.block :: hand) free others) := by
    have moved := ((same.map fun own => own.block.span).append_left (free.map Block.span)).append_left (hand.map Block.span)
    refine moved.trans ?_
    simp only [spansOf, map_cons, cons_append]
    rw [← append_assoc, ← append_assoc]
    exact perm_middle
  have counted := totalSize_perm (same.map fun own => own.block.span)
  have subset : ∀ other ∈ others, other ∈ owned := fun other member =>
    same.mem_iff.mpr (mem_cons_of_mem _ member)
  refine ⟨layout.list, fun other member => layout.headers other (subset other member),
    fun other member => layout.room other (subset other member), layout.tiles.perm order, layout.granted, ?_,
    layout.total, ?_⟩
  · simp only [map_cons, totalSize_cons, Block.span_size] at counted
    simp only [layout.used, counted]
    omega
  · rw [← totalSize_perm order, layout.balance]

end

variable {need fuel : Nat} {free : List Block} {block : Block} {heap : State (π × List Span)} {taken : Block}

theorem firstFit_some {heap : State π} (link : Link) {fit : Fit} (chain : Seg heap.mem (heap.load link) free 0)
    (headers : ∀ block ∈ free, Header heap.mem heapMagicFree block) (bounded : ∀ block ∈ free, block.Bounded)
    (result : firstFit heap need fuel link = some fit) :
    (fit = .absent ∧ ∀ block ∈ free, block.size < need) ∨
    ∃ lower block upper, free = lower ++ block :: upper ∧ fit = .found (linkAfter link lower) block.addr ∧
      need ≤ block.size ∧ ∀ other ∈ lower, other.size < need := by
  induction fuel generalizing link free with
  | zero => cases result
  | succ fuel ih =>
    simp only [firstFit] at result
    cases free with
    | nil =>
      have empty : heap.load link = 0 := chain
      simp only [empty, if_true, Option.some.injEq] at result
      exact .inl ⟨result.symm, by simp⟩
    | cons block rest =>
      obtain ⟨here, chain⟩ := chain
      have header := headers block mem_cons_self
      have nonzero : block.addr ≠ 0 := by
        have low := (bounded block mem_cons_self).1
        omega
      simp only [here, nonzero, header.magic, header.canary, header.size, ne_eq, not_true_eq_false, or_self,
        if_false] at result
      split at result
      next fits =>
        simp only [Option.some.injEq] at result
        exact .inr ⟨[], block, rest, rfl, result.symm, fits, by simp⟩
      next small =>
        rcases ih (.next block.addr) chain (fun other member => headers other (mem_cons_of_mem _ member))
          (fun other member => bounded other (mem_cons_of_mem _ member)) result with absent | found
        · refine .inl ⟨absent.1, ?_⟩
          intro other member
          rcases mem_cons.mp member with rfl | member
          · omega
          · exact absent.2 other member
        · obtain ⟨lower, other, upper, rfl, same, fits, passed⟩ := found
          exact .inr ⟨block :: lower, other, upper, rfl, same, fits, forall_mem_cons.mpr ⟨by omega, passed⟩⟩

theorem firstFit_returns {heap : State π} (need : Nat) (link : Link) (chain : Seg heap.mem (heap.load link) free 0)
    (enough : free.length < fuel) : ∃ fit, firstFit heap need fuel link = some fit := by
  induction fuel generalizing link free with
  | zero => omega
  | succ fuel ih =>
    simp only [firstFit]
    split
    · exact ⟨_, rfl⟩
    next nonzero =>
      split
      · exact ⟨_, rfl⟩
      · split
        · exact ⟨_, rfl⟩
        · cases free with
          | nil => exact absurd chain nonzero
          | cons block rest =>
            rw [chain.1]
            exact ih (.next block.addr) chain.2 (by simp only [length_cons] at enough; omega)

theorem Absorbs.larger {after : List Block} (absorbs : Absorbs block free after) :
    ∃ entry ∈ after, block.size ≤ entry.size := by
  cases absorbs with
  | insert lower upper => exact ⟨block, by simp, Nat.le_refl _⟩
  | next lower upper other _ => exact ⟨block.merge other, by simp, by simp only [Block.merge]; omega⟩
  | previous lower upper other _ => exact ⟨other.merge block, by simp, by simp only [Block.merge]; omega⟩

section
variable {fuel : Nat} {heap after : State (π × List Span)} {block : Block} {hand free : List Block} {owned : List Owned}
  (layout : Layout heap (block :: hand) free owned) (size : sizeAt heap.mem block.addr = block.size)
include layout size

theorem Layout.insertFree (result : insertFree fuel block.addr heap = some after) :
    ∃ merged, Layout after hand merged owned ∧ after.pmm = heap.pmm ∧ after.ready = heap.ready ∧
      Coalesces block free merged ∧ Mem.ChangesOnly (block.span :: free.map Block.span) heap.mem after.mem := by
  have away := layout.hand_apart
  obtain ⟨merged, outcome, coalesces⟩ := insertFree_outcome layout.list size (layout.bounded (mem_spansOf_hand mem_cons_self))
    (fun other member => away _ (mem_spansOf_free member)) result
  obtain ⟨sameTotal, sameUsed, sameReady, samePmm⟩ := outcome.rest
  refine ⟨merged, ⟨outcome.list, ?_, layout.room, ?_, ?_, ?_, ?_, ?_⟩, samePmm, sameReady, coalesces,
    outcome.changes⟩
  · intro own member
    refine (layout.headers own member).frame (header_agree outcome.changes ?_)
    intro span changed
    rcases mem_cons.mp changed with rfl | changed
    · exact away _ (mem_spansOf_owned member)
    · have apart := (pairwise_append.mp (pairwise_append.mp layout.tiles.apart).2.1).2.2
      exact apart span changed own.block.span (List.mem_map.mpr ⟨own, member, rfl⟩)
  · -- The hand only adds tiles next to those that `insert_free` rearranges.
    have tiles : Tiles (block.span :: (free.map Block.span ++
        (hand.map Block.span ++ owned.map fun own => own.block.span))) heap.pmm.2 := by
      apply layout.tiles.perm
      simp only [spansOf, map_cons, cons_append, ← append_assoc]
      exact (perm_append_comm.append_right _).cons _
    rw [samePmm]
    refine (outcome.absorbs.tiles tiles).perm ?_
    simp only [spansOf, ← append_assoc]
    exact perm_append_comm.append_right _
  · rw [samePmm]
    exact layout.granted
  · rw [sameUsed]
    exact layout.used
  · rw [sameTotal, samePmm]
    exact layout.total
  · have absorbed := outcome.absorbs.total
    rw [samePmm, ← layout.balance]
    simp only [spansOf, map_cons, cons_append, totalSize_cons, totalSize_append] at absorbed ⊢
    omega

theorem Layout.insertFree_returns (enough : 2 ^ 32 ≤ fuel) : ∃ after, Heap.insertFree fuel block.addr heap = some after := by
  have short := layout.length_le
  exact Heap.insertFree_returns layout.list size (layout.bounded (mem_spansOf_hand mem_cons_self))
    (fun other member => layout.hand_apart _ (mem_spansOf_free member)) (by omega)

end

def regionBlock (phys pages : Nat) : Block := ⟨phys, pages * pageSize - headerSize⟩

theorem expandPages_many (need : Nat) : heapExpandPages ≤ expandPages need := Nat.le_max_right _ _

theorem expandPages_pos (need : Nat) : 1 ≤ expandPages need := Nat.le_trans (by decide) (expandPages_many need)

theorem regionBlock_span (phys : Nat) {pages : Nat} (nonempty : 1 ≤ pages) :
    (regionBlock phys pages).span = ⟨phys, pages * pageSize⟩ := by
  have header : headerSize = 24 := rfl
  have page : pageSize = 4096 := rfl
  have positive : pageSize ≤ pages * pageSize := Nat.le_mul_of_pos_left _ nonempty
  simp only [regionBlock, Block.span, Span.mk.injEq, true_and]
  omega

private def grown (heap : State (π × List Span)) (pmm : π) (phys pages : Nat) : State (π × List Span) :=
  { heap with
    mem := setSize heap.mem phys (u64 (pages * pageSize + 2 ^ 64 - headerSize))
    pmm := (pmm, ⟨phys, pages * pageSize⟩ :: heap.pmm.2)
    total := u64 (heap.total + pages * pageSize) }

section
variable {heap after : State (π × List Span)} {free : List Block} {owned : List Owned} {pmm : π} {phys pages : Nat}

private theorem grown_layout (layout : Layout heap [] free owned) (nonempty : 1 ≤ pages) (nonzero : phys ≠ 0)
    (fits : phys + pages * pageSize ≤ 2 ^ 32) (fresh : ∀ old ∈ heap.pmm.2, old.Apart ⟨phys, pages * pageSize⟩) :
    Layout (grown heap pmm phys pages) [regionBlock phys pages] free owned ∧
      sizeAt (grown heap pmm phys pages).mem phys = (regionBlock phys pages).size := by
  have header : headerSize = 24 := rfl
  have positive : pageSize ≤ pages * pageSize := Nat.le_mul_of_pos_left _ nonempty
  have page : pageSize = 4096 := rfl
  have span := regionBlock_span phys nonempty
  have tiles := layout.tiles.add (Nat.lt_of_lt_of_le (by decide) positive) fresh
  have around := (pairwise_cons.mp tiles.apart).1
  have changes := setSize_changes heap.mem (regionBlock phys pages) (u64 (pages * pageSize + 2 ^ 64 - headerSize))
  rw [span] at changes
  have granted : Granted (⟨phys, pages * pageSize⟩ :: heap.pmm.2) := by
    refine ⟨?_, ?_, pairwise_cons.mpr ⟨fun old member => (fresh old member).symm, layout.granted.apart⟩⟩
    · simpa only [forall_mem_cons] using ⟨by omega, layout.granted.positive⟩
    · simpa only [forall_mem_cons] using ⟨fits, layout.granted.below⟩
  have sum := totalSize_le granted.apart granted.below
  simp only [totalSize_cons] at sum
  refine ⟨⟨?_, ?_, layout.room, ?_, granted, layout.used, ?_, ?_⟩, ?_⟩
  · refine layout.list.changes changes ?_
    intro block member changed only
    rw [mem_singleton.mp only]
    exact around block.span (mem_spansOf_free member)
  · intro own member
    refine (layout.headers own member).frame (header_agree changes ?_)
    intro changed only
    rw [mem_singleton.mp only]
    exact around own.block.span (mem_spansOf_owned member)
  · simpa only [spansOf, map_cons, cons_append, span, grown] using tiles
  · simp only [grown, totalSize_cons, layout.total, u64]
    omega
  · have balance := layout.balance
    simp only [grown, spansOf, map_cons, map_nil, cons_append, nil_append, totalSize_cons, span]
      at balance ⊢
    omega
  · simp only [grown, regionBlock, sizeAt_setSize, u64]
    omega

variable {allocPages : PageSource π} {owns : π → List Span → Prop} {fuel need : Nat} {expanded : Bool}
  (contract : PageContract allocPages owns) (layout : Layout heap [] free owned) (held : owns heap.pmm.1 heap.pmm.2)
include contract layout held

private theorem grown_contract (nonzero : (allocPages (expandPages need) heap.pmm.1).1 ≠ 0) :
    let phys := (allocPages (expandPages need) heap.pmm.1).1
    let grown := grown heap (allocPages (expandPages need) heap.pmm.1).2 phys (expandPages need)
    Layout grown [regionBlock phys (expandPages need)] free owned ∧
      sizeAt grown.mem phys = (regionBlock phys (expandPages need)).size ∧ owns grown.pmm.1 grown.pmm.2 := by
  obtain ⟨fits, fresh, owned⟩ := contract.grant held nonzero
  obtain ⟨layout, size⟩ := grown_layout layout (expandPages_pos need) nonzero fits fresh
  exact ⟨layout, size, owned⟩

omit layout in
theorem expandHeap_refused (refused : (allocPages (expandPages need) heap.pmm.1).1 = 0) :
    (∀ fuel, expandHeap (traced allocPages) fuel need heap =
        some (false, { heap with pmm := ((allocPages (expandPages need) heap.pmm.1).2, heap.pmm.2) })) ∧
      owns (allocPages (expandPages need) heap.pmm.1).2 heap.pmm.2 := by
  refine ⟨fun fuel => ?_, contract.refuse held refused⟩
  simp only [expandHeap, traced, refused, if_true]

theorem expandHeap_grown (granted : (allocPages (expandPages need) heap.pmm.1).1 ≠ 0)
    (result : expandHeap (traced allocPages) fuel need heap = some (expanded, after)) :
    let region := regionBlock (allocPages (expandPages need) heap.pmm.1).1 (expandPages need)
    expanded = true ∧ ∃ larger, Layout after [] larger owned ∧ Coalesces region free larger ∧
      after.pmm = ((allocPages (expandPages need) heap.pmm.1).2, region.span :: heap.pmm.2) ∧
      owns after.pmm.1 after.pmm.2 ∧ after.ready = heap.ready ∧
      Mem.ChangesOnly (region.span :: free.map Block.span) heap.mem after.mem := by
  obtain ⟨ready, size, owned⟩ := grown_contract contract layout held granted
  have span := regionBlock_span (allocPages (expandPages need) heap.pmm.1).1 (expandPages_pos need)
  simp only [expandHeap, traced, granted, if_false, bind_eq_bind, bind_eq_some_iff, Option.some.injEq,
    Prod.mk.injEq] at result
  obtain ⟨final, inserted, rfl, rfl⟩ := result
  obtain ⟨merged, kept, samePmm, sameReady, coalesces, changes⟩ := ready.insertFree size inserted
  refine ⟨rfl, merged, kept, coalesces, samePmm.trans ?_, samePmm ▸ owned, sameReady, ?_⟩
  · simp only [grown, span]
  · refine Mem.ChangesOnly.trans ?_ changes
    have sized := setSize_changes heap.mem (regionBlock (allocPages (expandPages need) heap.pmm.1).1 (expandPages need))
      (u64 (expandPages need * pageSize + 2 ^ 64 - headerSize))
    exact sized.mono (by simp)

theorem expandHeap_layout (result : expandHeap (traced allocPages) fuel need heap = some (expanded, after)) :
    ∃ larger, Layout after [] larger owned ∧ owns after.pmm.1 after.pmm.2 ∧ after.ready = heap.ready ∧
      (expanded = true → totalSize heap.pmm.2 + 2 ^ 16 ≤ totalSize after.pmm.2) := by
  by_cases refused : (allocPages (expandPages need) heap.pmm.1).1 = 0
  · obtain ⟨is, owned⟩ := expandHeap_refused contract held refused
    cases (is fuel).symm.trans result
    exact ⟨free, layout.repaged _, owned, rfl, by simp⟩
  · obtain ⟨_, larger, kept, _, pmm, owned, ready, _⟩ := expandHeap_grown contract layout held refused result
    have bytes := Nat.mul_le_mul_right pageSize (expandPages_many need)
    refine ⟨larger, kept, owned, ready, fun _ => ?_⟩
    rw [pmm, regionBlock_span _ (expandPages_pos need), totalSize_cons]
    simp only [heapExpandPages, pageSize] at bytes ⊢
    omega

theorem expandHeap_returns (need : Nat) (enough : 2 ^ 32 ≤ fuel) :
    ∃ expanded after, expandHeap (traced allocPages) fuel need heap = some (expanded, after) := by
  simp only [expandHeap, traced]
  split
  · exact ⟨_, _, rfl⟩
  next nonzero =>
    obtain ⟨ready, size, owned⟩ := grown_contract contract layout held nonzero
    obtain ⟨after, inserted⟩ := ready.insertFree_returns size enough
    exact ⟨true, after, by simpa only [bind_eq_bind, bind_eq_some_iff] using ⟨after, inserted, rfl⟩⟩

end

theorem expandHeap_granted {allocPages : PageSource π} {after : State (π × List Span)} {expanded : Bool}
    (granted : (allocPages (expandPages need) heap.pmm.1).1 ≠ 0)
    (result : expandHeap (traced allocPages) fuel need heap = some (expanded, after)) : expanded = true := by
  simp only [expandHeap, traced, granted, if_false, bind_eq_bind, bind_eq_some_iff, Option.some.injEq,
    Prod.mk.injEq] at result
  obtain ⟨_, _, same, _⟩ := result
  exact same.symm

private def markAllocated (mem : Mem) (block : Nat) : Mem :=
  setNext (setCanary (setMagic mem block heapMagicAlloc) block (not32 heapMagicAlloc)) block 0

private theorem markAllocated_changes (mem : Mem) (block : Block) :
    Mem.ChangesOnly [block.span] mem (markAllocated mem block.addr) :=
  ((setMagic_changes mem block _).trans (setCanary_changes _ block _)).trans (setNext_changes _ block 0)

private theorem markAllocated_header {mem : Mem} {tag : Nat} (header : Header mem tag block) :
    Header (markAllocated mem block.addr) heapMagicAlloc block := by
  have magic : heapMagicAlloc % 256 ^ 4 = heapMagicAlloc := by decide
  have canary : not32 heapMagicAlloc % 256 ^ 4 = not32 heapMagicAlloc := by decide
  refine ⟨?_, ?_, ?_⟩
  · refine (Mem.le_put_apart _ _ _ _ (by omega)).trans ((Mem.le_put_apart _ _ _ _ (by omega)).trans ?_)
    exact (Mem.le_put mem block.addr 4 heapMagicAlloc).trans magic
  · refine (Mem.le_put_apart _ _ _ _ (by omega)).trans ?_
    exact (Mem.le_put _ (block.addr + 16) 4 _).trans canary
  · refine (Mem.le_put_apart _ _ _ _ (by omega)).trans ((Mem.le_put_apart _ _ _ _ (by omega)).trans ?_)
    exact (Mem.le_put_apart _ _ _ _ (by omega)).trans header.size

private theorem Layout.finish {owned : List Owned} {tag : Nat} (layout : Layout heap [taken] free owned)
    (header : Header heap.mem tag taken) :
    Layout { heap with mem := markAllocated heap.mem taken.addr } [taken] free owned ∧
      Header (markAllocated heap.mem taken.addr) heapMagicAlloc taken :=
  ⟨layout.write_hand (markAllocated_changes heap.mem taken), markAllocated_header header⟩

private theorem rest_layout {owned : List Owned} (layout : Layout heap [block] free owned)
    (header : Header heap.mem heapMagicFree block) (large : need + headerSize + heapMinBlock ≤ block.size) :
    let rest : Block := ⟨block.addr + headerSize + need, block.size - need - headerSize⟩
    let mem := setSize heap.mem rest.addr rest.size
    Layout { heap with mem } [rest, ⟨block.addr, need⟩] free owned ∧ sizeAt mem rest.addr = rest.size ∧
      Header mem heapMagicFree block ∧ Mem.ChangesOnly [block.span] heap.mem mem := by
  intro rest mem
  have bounded := layout.bounded (mem_spansOf_hand mem_cons_self)
  have size : headerSize = 24 := rfl
  have changes : Mem.ChangesOnly [block.span] heap.mem mem :=
    Mem.put_changes heap.mem _ (by simp only [Block.span_start, rest]; omega)
      (by simp only [Block.span_start, Block.span_size, rest]; omega)
  refine ⟨(layout.write_hand changes).cut (by omega), ?_, ?_, changes⟩
  · have small : rest.size < 2 ^ 32 := by
      simp only [Block.Bounded] at bounded
      simp only [rest]
      omega
    rw [sizeAt_setSize, Nat.mod_eq_of_lt small]
  · exact header.frame (Mem.put_agree heap.mem _ _ _ (by simp only [rest]; omega))

/-- The block that first fit has found is taken whole, or its end goes back to the free blocks. -/
inductive Carves (need : Nat) (block : Block) (others : List Block) : Block → List Block → Prop where
  | whole (tight : block.size < need + headerSize + heapMinBlock) : Carves need block others block others
  | split {free : List Block} (large : need + headerSize + heapMinBlock ≤ block.size)
      (returned : Coalesces ⟨block.addr + headerSize + need, block.size - need - headerSize⟩ others free) :
      Carves need block others ⟨block.addr, need⟩ free

theorem Carves.addr {others : List Block} (carves : Carves need block others taken free) :
    taken.addr = block.addr := by
  cases carves <;> rfl

theorem Carves.room {others : List Block} (carves : Carves need block others taken free) (fits : need ≤ block.size) :
    need ≤ taken.size := by
  cases carves with
  | whole => exact fits
  | split => exact Nat.le_refl _

section
variable {fuel need : Nat} {heap after : State (π × List Span)} {lower upper : List Block} {block : Block}
  {owned : List Owned} (layout : Layout heap [] (lower ++ block :: upper) owned)
  (fits : need ≤ block.size)
include layout fits

theorem takeBlock_layout
    (result : takeBlock fuel need (linkAfter .head lower) block.addr heap = some after) :
    ∃ free taken, Layout after [taken] free owned ∧ Header after.mem heapMagicAlloc taken ∧
      Carves need block (lower ++ upper) taken free ∧
      Mem.ChangesOnly ((lower ++ block :: upper).map Block.span) heap.mem after.mem ∧
      after.pmm = heap.pmm ∧ after.ready = heap.ready := by
  obtain ⟨unlinked, header⟩ := layout.unlink
  have samePmm := store_pmm heap (linkAfter .head lower) (nextAt heap.mem block.addr)
  have sameReady := store_ready heap (linkAfter .head lower) (nextAt heap.mem block.addr)
  have member : ∀ {other : Block}, other ∈ lower ++ upper → other.span ∈ (lower ++ block :: upper).map Block.span := by
    intro other listed
    refine List.mem_map_of_mem ?_
    simp only [mem_append, mem_cons] at listed ⊢
    exact listed.elim .inl (fun above => .inr (.inr above))
  have wide : ∀ {spans : List Span} {first second : Mem}, Mem.ChangesOnly spans first second →
      (∀ span ∈ spans, (∃ other ∈ lower ++ upper, span = other.span) ∨
        block.addr ≤ span.start ∧ span.start + span.size ≤ block.addr + (headerSize + block.size)) →
      Mem.ChangesOnly ((lower ++ block :: upper).map Block.span) first second := by
    intro spans first second changes inside
    refine changes.weaken fun span changed => ?_
    rcases inside span changed with ⟨other, listed, rfl⟩ | within
    · exact ⟨other.span, member listed, Nat.le_refl _, Nat.le_refl _⟩
    · exact ⟨block.span, List.mem_map_of_mem (by simp), within⟩
  have unlinking := wide (store_changes heap lower (nextAt heap.mem block.addr)) (by
    intro span changed
    obtain ⟨other, listed, rfl⟩ := List.mem_map.mp changed
    exact .inl ⟨other, mem_append_left _ listed, rfl⟩)
  simp only [takeBlock, bind_eq_bind, header.size] at result
  generalize heap.store (linkAfter .head lower) (nextAt heap.mem block.addr) = store at *
  split at result
  next large =>
    have roomy : need + headerSize + heapMinBlock ≤ block.size := by omega
    obtain ⟨cut, size, kept, sizing⟩ := rest_layout unlinked header roomy
    simp only [bind_eq_some_iff, Option.some.injEq] at result
    obtain ⟨inserted, done, _, rfl, rfl⟩ := result
    obtain ⟨merged, layout, pmm, ready, coalesces, changes⟩ := cut.insertFree size done
    have away : ∀ span ∈ (⟨block.addr + headerSize + need, block.size - need - headerSize⟩ : Block).span ::
        (lower ++ upper).map Block.span, span.Apart (⟨block.addr, need⟩ : Block).span := by
      have apart := (pairwise_cons.mp (cut.tiles.perm (List.Perm.swap _ _ _)).apart).1
      intro span member
      refine (apart span ?_).symm
      rcases mem_cons.mp member with rfl | member
      · exact mem_cons_self
      · exact mem_cons_of_mem _ (mem_append_right _ (mem_append_left _ member))
    have header := (kept.frame (@header_agree _ _ _ changes ⟨block.addr, need⟩ away)).setSize
      (show (⟨block.addr, need⟩ : Block).addr = block.addr from rfl) (by
        have bounded := unlinked.bounded (mem_spansOf_hand mem_cons_self)
        simp only [Block.Bounded] at bounded
        simp only
        omega)
    have marking := (setSize_changes inserted.mem ⟨block.addr, need⟩ need).trans
      (markAllocated_changes _ ⟨block.addr, need⟩)
    obtain ⟨layout, header⟩ := (layout.write_hand (setSize_changes inserted.mem ⟨block.addr, need⟩ need)).finish header
    refine ⟨merged, ⟨block.addr, need⟩, layout, header, .split roomy coalesces, ?_, pmm.trans samePmm,
      ready.trans sameReady⟩
    refine ((unlinking.trans (wide sizing ?_)).trans (wide changes ?_)).trans (wide marking ?_)
    · intro span changed
      rw [mem_singleton.mp changed]
      exact .inr ⟨Nat.le_refl _, Nat.le_refl _⟩
    · intro span changed
      rcases mem_cons.mp changed with rfl | changed
      · refine .inr ⟨?_, ?_⟩ <;> simp only [Block.span_start, Block.span_size] <;> omega
      · obtain ⟨other, listed, rfl⟩ := List.mem_map.mp changed
        exact .inl ⟨other, listed, rfl⟩
    · intro span changed
      rw [mem_singleton.mp changed]
      refine .inr ⟨?_, ?_⟩ <;> simp only [Block.span_start, Block.span_size] <;> omega
  next tight =>
    simp only [bind_some, Option.some.injEq] at result
    subst result
    have marking := markAllocated_changes store.mem block
    obtain ⟨layout, header⟩ := unlinked.finish header
    refine ⟨_, block, layout, header, .whole (by omega), unlinking.trans (wide marking ?_), samePmm, sameReady⟩
    intro span changed
    rw [mem_singleton.mp changed]
    exact .inr ⟨Nat.le_refl _, Nat.le_refl _⟩

theorem takeBlock_returns (enough : 2 ^ 32 ≤ fuel) :
    ∃ after, takeBlock fuel need (linkAfter .head lower) block.addr heap = some after := by
  obtain ⟨unlinked, header⟩ := layout.unlink
  simp only [takeBlock, bind_eq_bind, header.size]
  generalize heap.store (linkAfter .head lower) (nextAt heap.mem block.addr) = store at *
  split
  next large =>
    obtain ⟨cut, size, _, _⟩ := rest_layout unlinked header (show need + headerSize + heapMinBlock ≤ block.size by omega)
    obtain ⟨inserted, done⟩ := cut.insertFree_returns size enough
    exact ⟨_, by simp only [done, bind_some]; rfl⟩
  next => exact ⟨_, rfl⟩

end

def handOut (size align block : Nat) (heap : State π) : Nat × State π :=
  let (ptr, heap) := placePointer align block heap
  (ptr, { heap with
    mem := heap.mem.fill ptr size heapPoisonAlloc
    used := u64 (heap.used + (sizeAt heap.mem block + headerSize)) })

section
variable {allocPages : PageSource π} {owns : π → List Span → Prop} {heap : State (π × List Span)} {free : List Block}
  {owned : List Owned} {fuel size align need rounds : Nat} (layout : Layout heap [] free owned)
include layout

theorem kmallocLoop_cases {result : Nat × State (π × List Span)}
    (returned : kmallocLoop (traced allocPages) fuel size align need (rounds + 1) heap = some result) :
    (∃ lower block upper taking, free = lower ++ block :: upper ∧ (∀ other ∈ lower, other.size < need) ∧
      need ≤ block.size ∧ takeBlock fuel need (linkAfter .head lower) block.addr heap = some taking ∧
      result = handOut size align block.addr taking) ∨
    (∀ block ∈ free, block.size < need) ∧
      ∃ expanded grown, expandHeap (traced allocPages) fuel need heap = some (expanded, grown) ∧
        if expanded then kmallocLoop (traced allocPages) fuel size align need rounds grown = some result
        else result = (0, grown) := by
  simp only [kmallocLoop, bind_eq_bind, bind_eq_some_iff] at returned
  obtain ⟨fit, walked, returned⟩ := returned
  rcases firstFit_some .head layout.list.chain layout.list.headers layout.list.bounded walked with
    ⟨rfl, small⟩ | ⟨lower, block, upper, rfl, rfl, large, passed⟩
  · simp only [bind_eq_some_iff] at returned
    obtain ⟨⟨expanded, grown⟩, expands, returned⟩ := returned
    refine .inr ⟨small, expanded, grown, expands, ?_⟩
    cases expanded with
    | true => exact returned
    | false => exact (Option.some.inj returned).symm
  · simp only [bind_eq_some_iff] at returned
    obtain ⟨taking, took, returned⟩ := returned
    split at returned
    next => cases returned
    next => exact .inl ⟨lower, block, upper, taking, rfl, passed, large, took, (Option.some.inj returned).symm⟩

variable (contract : PageContract allocPages owns) (held : owns heap.pmm.1 heap.pmm.2)
include contract held

/-- Each expansion takes 64 KiB of the 4 GiB, so there are finitely many. -/
theorem kmallocLoop_returns (enough : 2 ^ 32 ≤ fuel) (fits : size ≤ need)
    (many : 2 ^ 32 < totalSize heap.pmm.2 + 2 ^ 16 * rounds) :
    ∃ result, kmallocLoop (traced allocPages) fuel size heapAlign need rounds heap = some result := by
  induction rounds generalizing heap free with
  | zero =>
    have sum := layout.sum_le
    omega
  | succ rounds ih =>
    have short := layout.length_le
    obtain ⟨fit, walked⟩ := firstFit_returns need .head layout.list.chain (show free.length < fuel by omega)
    simp only [kmallocLoop, bind_eq_bind, walked, bind_some]
    rcases firstFit_some .head layout.list.chain layout.list.headers layout.list.bounded walked with
      ⟨rfl, _⟩ | ⟨lower, block, upper, rfl, rfl, large, _⟩
    · obtain ⟨expanded, larger, grown⟩ := expandHeap_returns contract layout held need enough
      obtain ⟨free, layout, held, _, growth⟩ := expandHeap_layout contract layout held grown
      simp only [grown, bind_some]
      split
      next yes => exact ih layout held (by have := growth yes; omega)
      next => exact ⟨_, rfl⟩
    · obtain ⟨taken, took⟩ := takeBlock_returns layout large enough
      have bounded := layout.list.bounded block (by simp)
      simp only [Block.Bounded] at bounded
      have inside : ¬2 ^ 64 ≤ block.addr + headerSize + size := by omega
      simp only [took, bind_some, placePointer, Nat.lt_irrefl, if_false, if_neg inside]
      exact ⟨_, rfl⟩

end

end GWKernel.Heap
