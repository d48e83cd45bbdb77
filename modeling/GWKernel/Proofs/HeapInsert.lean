import GWKernel.Proofs.HeapFreeList

/-! `insert_free` keeps the list ordered; the block is a new entry or part of one of its
neighbours. -/

namespace GWKernel.Heap
open Lib Pmm List Option

variable {π : Type}

/-- How a free list may look after taking a block in. -/
inductive Absorbs (block : Block) : List Block → List Block → Prop where
  | insert (lower upper : List Block) : Absorbs block (lower ++ upper) (lower ++ block :: upper)
  | next (lower upper : List Block) (other : Block) (joins : block.Joins other) :
      Absorbs block (lower ++ other :: upper) (lower ++ block.merge other :: upper)
  | previous (lower upper : List Block) (other : Block) (joins : other.Joins block) :
      Absorbs block (lower ++ other :: upper) (lower ++ other.merge block :: upper)

/-- Which of the three happens: the next entry is joined if it touches, else the previous one. -/
inductive Coalesces (block : Block) : List Block → List Block → Prop where
  | alone (lower upper : List Block) (noNext : ∀ other ∈ lower ++ upper, ¬block.Joins other)
      (noPrevious : ∀ other ∈ lower ++ upper, ¬other.Joins block) :
      Coalesces block (lower ++ upper) (lower ++ block :: upper)
  | next (lower upper : List Block) (other : Block) (joins : block.Joins other) :
      Coalesces block (lower ++ other :: upper) (lower ++ block.merge other :: upper)
  | previous (lower upper : List Block) (other : Block) (joins : other.Joins block)
      (noNext : ∀ entry ∈ lower ++ other :: upper, ¬block.Joins entry) :
      Coalesces block (lower ++ other :: upper) (lower ++ other.merge block :: upper)

variable {block : Block} {free after : List Block} {mem : Mem} {place : Nat} {lower : List Block} {heap : State π}
  {upper : List Block} {fuel value : Nat}

theorem Coalesces.absorbs (coalesces : Coalesces block free after) : Absorbs block free after := by
  cases coalesces with
  | alone lower upper => exact .insert lower upper
  | next lower upper other joins => exact .next lower upper other joins
  | previous lower upper other joins => exact .previous lower upper other joins

theorem merge_tiles {first second : Block} (joins : first.Joins second) {rest regions : List Span}
    (tiles : Tiles (first.span :: second.span :: rest) regions) : Tiles ((first.merge second).span :: rest) regions := by
  have start : second.span = ⟨first.span.start + first.span.size, second.span.size⟩ := by
    simp only [Block.Joins] at joins
    simp only [Block.span, Span.mk.injEq, and_true]
    omega
  rw [start] at tiles
  have joined := @Tiles.join _ _ first.span.start first.span.size _ tiles
  simpa only [Block.merge, Block.span, Nat.add_assoc] using joined

theorem Absorbs.tiles (absorbs : Absorbs block free after) {rest regions : List Span}
    (tiles : Tiles (block.span :: (free.map Block.span ++ rest)) regions) :
    Tiles (after.map Block.span ++ rest) regions := by
  cases absorbs with
  | insert lower upper =>
    apply tiles.perm
    simp only [map_append, map_cons, append_assoc, cons_append]
    exact perm_middle.symm
  | next lower upper other joins =>
    have front : Tiles (block.span :: other.span :: (lower.map Block.span ++ (upper.map Block.span ++ rest))) regions := by
      apply tiles.perm
      simp only [map_append, map_cons, append_assoc, cons_append]
      exact perm_middle.cons _
    apply (merge_tiles joins front).perm
    simp only [map_append, map_cons, append_assoc, cons_append]
    exact perm_middle.symm
  | previous lower upper other joins =>
    have front : Tiles (other.span :: block.span :: (lower.map Block.span ++ (upper.map Block.span ++ rest))) regions := by
      apply tiles.perm
      simp only [map_append, map_cons, append_assoc, cons_append]
      exact (perm_middle.cons _).trans (List.Perm.swap _ _ _)
    apply (merge_tiles joins front).perm
    simp only [map_append, map_cons, append_assoc, cons_append]
    exact perm_middle.symm

theorem Absorbs.total (absorbs : Absorbs block free after) :
    totalSize (after.map Block.span) = block.span.size + totalSize (free.map Block.span) := by
  cases absorbs <;>
    simp only [map_append, map_cons, totalSize_append, totalSize_cons, Block.span_size, Block.merge] <;>
    omega

private theorem markFree_size (mem : Mem) (block : Nat) :
    sizeAt (setNext (setCanary (setMagic mem block heapMagicFree) block (not32 heapMagicFree)) block 0) block =
      sizeAt mem block := by
  rw [sizeAt_setNext]
  exact (Mem.le_put_apart _ _ _ _ (by omega)).trans (Mem.le_put_apart _ _ _ _ (by omega))

theorem markFree_changes (size : sizeAt mem block.addr = block.size) :
    Mem.ChangesOnly [block.span] mem (markFree mem block.addr) := by
  simp only [markFree, markFree_size, size]
  refine (((setMagic_changes mem block _).trans (setCanary_changes _ block _)).trans
    (setNext_changes _ block 0)).trans (Mem.fill_changes _ _ ?_ ?_)
  · simp
  · simp [Nat.add_assoc]

theorem markFree_header (size : sizeAt mem block.addr = block.size) :
    Header (markFree mem block.addr) heapMagicFree block := by
  have header : headerSize = 24 := rfl
  have magic : heapMagicFree % 256 ^ 4 = heapMagicFree := by decide
  have canary : not32 heapMagicFree % 256 ^ 4 = not32 heapMagicFree := by decide
  simp only [markFree, markFree_size, size]
  refine ⟨?_, ?_, ?_⟩
  · refine (Mem.le_fill_apart _ _ _ _ (by omega)).trans ((Mem.le_put_apart _ _ _ _ (by omega)).trans
      ((Mem.le_put_apart _ _ _ _ (by omega)).trans ?_))
    exact (Mem.le_put mem block.addr 4 heapMagicFree).trans magic
  · refine (Mem.le_fill_apart _ _ _ _ (by omega)).trans ((Mem.le_put_apart _ _ _ _ (by omega)).trans ?_)
    exact (Mem.le_put _ (block.addr + 16) 4 _).trans canary
  · exact (Mem.le_fill_apart _ _ _ _ (by omega)).trans ((markFree_size mem block.addr).trans size)

theorem markFree_poison {block : Nat} (low : block + headerSize ≤ place)
    (high : place < block + headerSize + sizeAt mem block) : markFree mem block place = heapPoisonFree := by
  simp only [markFree, markFree_size]
  exact if_pos ⟨low, high⟩

theorem markFree_canary (mem : Mem) (block : Nat) : canaryAt (markFree mem block) block = not32 heapMagicFree := by
  have header : headerSize = 24 := rfl
  have canary : not32 heapMagicFree % 256 ^ 4 = not32 heapMagicFree := by decide
  refine (Mem.le_fill_apart _ _ _ _ (by omega)).trans ((Mem.le_put_apart _ _ _ _ (by omega)).trans ?_)
  exact (Mem.le_put _ (block + 16) 4 _).trans canary

private theorem seg_next {first last : Nat} (chain : Seg mem first (lower ++ [block]) last) :
    ∀ other ∈ lower, ∃ following ∈ lower ++ [block], nextAt mem other.addr = following.addr := by
  induction lower generalizing first with
  | nil => simp
  | cons head rest ih =>
    intro other member
    obtain ⟨_, chain⟩ := chain
    rcases mem_cons.mp member with rfl | member
    · cases rest with
      | nil => exact ⟨block, by simp, chain.1⟩
      | cons following rest => exact ⟨following, by simp, chain.1⟩
    · obtain ⟨following, listed, same⟩ := ih chain other member
      exact ⟨following, by simp only [cons_append, mem_cons]; exact .inr listed, same⟩

structure Outcome (before after : State π) (block : Block) (free result : List Block) : Prop where
  list : FreeList after.mem after.freeList result
  absorbs : Absorbs block free result
  changes : Mem.ChangesOnly (block.span :: free.map Block.span) before.mem after.mem
  rest : after.total = before.total ∧ after.used = before.used ∧ after.ready = before.ready ∧ after.pmm = before.pmm

private theorem merged_previous {previous merged : Block}
    (list : FreeList heap.mem heap.freeList (lower ++ previous :: block :: upper)) (joins : previous.Joins block)
    (same : merged = previous.merge block) :
    FreeList (setNext (setSize heap.mem previous.addr merged.size) previous.addr
        (nextAt (setSize heap.mem previous.addr merged.size) block.addr)) heap.freeList
      (lower ++ merged :: upper) := by
  obtain ⟨chain, headers, sorted, bounded⟩ := list
  obtain ⟨middle, front, rfl, here, back⟩ := seg_append.mp chain
  have start : merged.addr = previous.addr := by rw [same, Block.merge]
  have size : merged.size = previous.size + (headerSize + block.size) := by rw [same, Block.merge]
  have small : merged.Bounded := by
    have low := bounded previous (by simp)
    have high := bounded block (by simp)
    simp only [Block.Bounded, Block.Joins] at *
    omega
  obtain ⟨_, order, across⟩ := pairwise_append.mp sorted
  obtain ⟨after, order⟩ := pairwise_cons.mp order
  obtain ⟨beyond, later⟩ := pairwise_cons.mp order
  have following : nextAt (setSize heap.mem previous.addr merged.size) block.addr = nextAt heap.mem block.addr := by
    apply nextAt_frame
    apply header_agree (setSize_changes heap.mem previous _)
    simpa using (after block (by simp)).apart
  rw [following]
  have changes : Mem.ChangesOnly [previous.span] heap.mem
      (setNext (setSize heap.mem previous.addr merged.size) previous.addr (nextAt heap.mem block.addr)) :=
    (setSize_changes heap.mem previous _).trans (setNext_changes _ previous _)
  have lowerApart : ∀ other ∈ lower, ∀ span ∈ [previous.span], span.Apart other.span := by
    intro other member span changed
    rw [mem_singleton.mp changed]
    exact (across other member previous (by simp)).apart.symm
  have upperApart : ∀ other ∈ upper, ∀ span ∈ [previous.span], span.Apart other.span := by
    intro other member span changed
    rw [mem_singleton.mp changed]
    exact (after other (by simp [member])).apart
  refine ⟨?_, ?_, ?_, ?_⟩
  · refine seg_append.mpr ⟨previous.addr, front.changes changes lowerApart, start.symm, ?_⟩
    rw [start, nextAt_setNext, Nat.mod_eq_of_lt (nextAt_lt _ _)]
    exact back.changes changes upperApart
  · intro other member
    simp only [mem_append, mem_cons] at member
    rcases member with below | rfl | above
    · exact (headers other (by simp [below])).frame (header_agree changes (lowerApart other below))
    · have header := ((headers previous (by simp)).setSize start (by
        have header : headerSize = 24 := rfl
        simp only [Block.Bounded] at small
        omega)).setNext (nextAt heap.mem block.addr)
      rwa [start] at header
    · exact (headers other (by simp [above])).frame (header_agree changes (upperApart other above))
  · refine pairwise_append.mpr ⟨(pairwise_append.mp sorted).1, pairwise_cons.mpr ⟨?_, later⟩, ?_⟩
    · intro other member
      have gap := beyond other member
      simp only [Block.Before, Block.Joins] at *
      omega
    · intro other member last listed
      rcases mem_cons.mp listed with rfl | listed
      · have gap := across other member previous (by simp)
        simp only [Block.Before] at gap ⊢
        omega
      · exact across other member last (by simp [listed])
  · intro other member
    simp only [mem_append, mem_cons] at member
    rcases member with below | rfl | above
    · exact bounded other (by simp [below])
    · exact small
    · exact bounded other (by simp [above])

private theorem not_joins_of_sorted (sorted : (lower ++ block :: upper).Pairwise Block.Before) :
    (∀ other ∈ lower, ¬block.Joins other) ∧ (∀ other ∈ upper, ¬other.Joins block) := by
  have header : headerSize = 24 := rfl
  obtain ⟨_, order, across⟩ := pairwise_append.mp sorted
  constructor
  · intro other member joins
    have before := across other member block mem_cons_self
    simp only [Block.Before, Block.Joins] at before joins
    omega
  · intro other member joins
    have before := (pairwise_cons.mp order).1 other member
    simp only [Block.Before, Block.Joins] at before joins
    omega

theorem coalescePrevious_outcome {after : State π}
    (list : FreeList heap.mem heap.freeList (lower ++ block :: upper))
    (noNext : ∀ other ∈ lower ++ upper, ¬block.Joins other)
    (result : coalescePrevious fuel block.addr heap = some after) :
    ∃ free, Outcome heap after block (lower ++ upper) free ∧ Coalesces block (lower ++ upper) free := by
  have header : headerSize = 24 := rfl
  have above := (not_joins_of_sorted list.sorted).2
  have unchanged : (∀ other ∈ lower, ¬other.Joins block) → Outcome heap heap block (lower ++ upper) (lower ++ block :: upper) ∧
      Coalesces block (lower ++ upper) (lower ++ block :: upper) := fun below =>
    ⟨⟨list, .insert lower upper, Mem.ChangesOnly.refl _ _, rfl, rfl, rfl, rfl⟩,
      .alone lower upper noNext fun other member => (mem_append.mp member).elim (below other) (above other)⟩
  unfold coalescePrevious at result
  split at result
  next first =>
    cases result
    refine ⟨_, unchanged fun other member _ => ?_⟩
    -- the block is the first entry, so nothing lies below it
    cases lower with
    | nil => cases member
    | cons head rest =>
      have before := (pairwise_append.mp list.sorted).2.2 head mem_cons_self block mem_cons_self
      have start : heap.freeList = head.addr := list.chain.1
      simp only [Block.Before] at before
      omega
  next inner =>
    simp only [bind_eq_bind, bind_eq_some_iff] at result
    obtain ⟨found, walked, result⟩ := result
    rcases eq_nil_or_concat lower with rfl | ⟨others, previous, rfl⟩
    · exact absurd list.chain.1 inner
    · simp only [concat_eq_append] at *
      obtain ⟨order, _, across⟩ := pairwise_append.mp list.sorted
      have chain : Seg heap.mem heap.freeList (others ++ [previous]) block.addr := by
        obtain ⟨middle, front, rfl, _⟩ := seg_append.mp list.chain
        exact front
      have nowhere : ∀ other ∈ others, nextAt heap.mem other.addr ≠ block.addr := by
        intro other member same
        obtain ⟨following, listed, next⟩ := seg_next chain other member
        have before := across following listed block (by simp)
        have size : headerSize = 24 := rfl
        simp only [Block.Before] at before
        omega
      obtain rfl := findPrevious_some chain
        (fun other member => (list.bounded other (by simp only [mem_append] at *; exact .inl member)).1) nowhere walked
      split at result
      next touches =>
        simp only [Option.some.injEq] at result
        subst result
        have header := list.headers previous (by simp)
        have own := list.headers block (by simp)
        rw [header.size] at touches
        rw [header.size, own.size]
        refine ⟨others ++ previous.merge block :: upper, ⟨?_, ?_, ?_, rfl, rfl, rfl, rfl⟩, ?_⟩
        · exact merged_previous (by simpa using list) touches.2 rfl
        · simpa using Absorbs.previous others upper previous touches.2
        · refine ((setSize_changes heap.mem previous _).trans (setNext_changes _ previous _)).mono ?_
          simp
        · simpa using Coalesces.previous others upper previous touches.2 (by simpa using noNext)
      next apart =>
        cases result
        refine ⟨_, unchanged fun other member joins => ?_⟩
        have positive := (list.bounded previous (by simp)).1
        rw [(list.headers previous (by simp)).size] at apart
        rcases mem_append.mp member with low | here
        · have before := (pairwise_append.mp order).2.2 other low previous (by simp)
          have next := across previous (by simp) block mem_cons_self
          simp only [Block.Before, Block.Joins] at before next joins
          omega
        · obtain rfl := mem_singleton.mp here
          exact apart ⟨by omega, joins⟩

structure Between (lower upper : List Block) (block : Block) : Prop where
  below : ∀ other ∈ lower, other.Before block
  above : ∀ other ∈ upper, block.Before other

private theorem between_of_apart (apart : ∀ other ∈ lower ++ upper, block.span.Apart other.span)
    (rising : upper.Pairwise Block.Before) (low : ∀ other ∈ lower, other.addr < block.addr)
    (high : ∀ other ∈ upper.head?, block.addr ≤ other.addr) : Between lower upper block := by
  have header : headerSize = 24 := rfl
  constructor
  · intro other member
    have gap := apart other (by simp [member])
    have less := low other member
    simp only [Span.Apart, Block.span_start, Block.span_size, Block.Before] at gap ⊢
    omega
  · intro other member
    have gap := apart other (by simp [member])
    have more : block.addr ≤ other.addr := by
      cases upper with
      | nil => cases member
      | cons first rest =>
        have least := high first (by simp)
        rcases mem_cons.mp member with rfl | member
        · exact least
        · have before := (pairwise_cons.mp rising).1 other member
          simp only [Block.Before] at before
          omega
    simp only [Span.Apart, Block.span_start, Block.span_size, Block.Before] at gap ⊢
    omega

private theorem linked_in (middle : Nat) (front : Seg heap.mem heap.freeList lower middle)
    (back : Seg heap.mem (nextAt heap.mem block.addr) upper 0)
    (headers : ∀ other ∈ lower ++ upper, Header heap.mem heapMagicFree other)
    (own : Header heap.mem heapMagicFree block) (sorted : (lower ++ upper).Pairwise Block.Before)
    (between : Between lower upper block) (bounded : ∀ other ∈ lower ++ upper, other.Bounded)
    (small : block.Bounded) :
    FreeList (heap.store (linkAfter .head lower) block.addr).mem (heap.store (linkAfter .head lower) block.addr).freeList
      (lower ++ block :: upper) := by
  obtain ⟨order, rising, across⟩ := pairwise_append.mp sorted
  apply FreeList.store front (show Seg heap.mem block.addr (block :: upper) 0 from ⟨rfl, back⟩)
  · intro other member
    simp only [mem_append, mem_cons] at member
    rcases member with below | rfl | above
    · exact headers other (by simp [below])
    · exact own
    · exact headers other (by simp [above])
  · refine pairwise_append.mpr ⟨order, pairwise_cons.mpr ⟨between.above, rising⟩, ?_⟩
    intro other member last listed
    rcases mem_cons.mp listed with rfl | listed
    · exact between.below other member
    · exact across other member last listed
  · intro other member
    simp only [mem_append, mem_cons] at member
    rcases member with below | rfl | above
    · exact bounded other (by simp [below])
    · exact small
    · exact bounded other (by simp [above])
  · simp only [Block.Bounded] at small
    omega

private theorem between_apart (between : Between lower upper block) :
    ∀ other ∈ lower ++ upper, ∀ span ∈ [block.span], span.Apart other.span := by
  intro other member span changed
  rw [mem_singleton.mp changed]
  rcases mem_append.mp member with below | above
  · exact (between.below other below).apart.symm
  · exact (between.above other above).apart

private theorem next_outcome {other merged : Block} (marking : Mem.ChangesOnly [block.span] heap.mem mem)
    (marked : Header mem heapMagicFree block) (listed : FreeList mem heap.freeList (lower ++ other :: upper))
    (between : Between lower (other :: upper) block) (joins : block.Joins other) (bounded : block.Bounded)
    (same : merged = block.merge other) :
    Outcome heap
      (({ heap with
          mem := setNext (setSize mem block.addr merged.size) block.addr
            (nextAt (setSize mem block.addr merged.size) other.addr) } : State π).store (linkAfter .head lower) block.addr)
      block (lower ++ other :: upper) (lower ++ merged :: upper) := by
  have start : merged.addr = block.addr := by rw [same, Block.merge]
  have size : merged.size = block.size + (headerSize + other.size) := by rw [same, Block.merge]
  have header : headerSize = 24 := rfl
  have larger : merged.Bounded := by
    have limit := listed.bounded other (by simp)
    simp only [Block.Bounded, Block.Joins] at *
    omega
  have fits : merged.size < 2 ^ 32 := by
    simp only [Block.Bounded] at larger
    omega
  have following : nextAt (setSize mem block.addr merged.size) other.addr = nextAt mem other.addr := by
    apply nextAt_frame
    apply header_agree (setSize_changes mem block _)
    exact between_apart between other (by simp)
  rw [following]
  have changes : Mem.ChangesOnly [block.span] mem
      (setNext (setSize mem block.addr merged.size) block.addr (nextAt mem other.addr)) :=
    (setSize_changes mem block _).trans (setNext_changes _ block _)
  have kept := listed.changes changes (between_apart between)
  obtain ⟨middle, front, _, back⟩ := seg_append.mp kept.chain
  obtain ⟨order, rising, across⟩ := pairwise_append.mp listed.sorted
  obtain ⟨beyond, later⟩ := pairwise_cons.mp rising
  have sub : ∀ entry ∈ lower ++ upper, entry ∈ lower ++ other :: upper := by
    intro entry member
    simp only [mem_append, mem_cons] at member ⊢
    exact member.elim .inl (fun above => .inr (.inr above))
  have unchanged : nextAt (setNext (setSize mem block.addr merged.size) block.addr (nextAt mem other.addr)) other.addr =
      nextAt mem other.addr := nextAt_frame (header_agree changes (between_apart between other (by simp)))
  refine ⟨?_, ?_, ?_, by simp, by simp, by simp, by simp⟩
  · rw [← start]
    refine linked_in middle ?_ ?_ (fun entry member => ?_) ?_ ?_ ⟨?_, ?_⟩
      (fun entry member => listed.bounded entry (sub entry member)) larger
    · simpa only [start] using front
    · simp only [start, nextAt_setNext, Nat.mod_eq_of_lt (nextAt_lt _ _)]
      rw [unchanged] at back
      exact back
    · simpa only [start] using kept.headers entry (sub entry member)
    · have own := (marked.setSize start fits).setNext (nextAt mem other.addr)
      simpa only [start] using own
    · exact pairwise_append.mpr ⟨order, later, fun low below high above => across low below high (by simp [above])⟩
    · intro entry member
      have gap := between.below entry member
      simp only [Block.Before] at gap ⊢
      omega
    · intro entry member
      have gap := beyond entry member
      simp only [Block.Before, Block.Joins] at *
      omega
  · rw [same]
    exact .next lower upper other joins
  · refine ((marking.trans changes).mono (by simp)).trans ((store_changes _ lower block.addr).mono ?_)
    intro span member
    simp only [map_append, mem_cons, mem_append] at member ⊢
    exact .inr (.inl member)

private theorem plain_linked {heap : State π} {mem : Mem} {lower upper : List Block} {block : Block} {target : Nat}
    (marked : Header mem heapMagicFree block) (listed : FreeList mem heap.freeList (lower ++ upper))
    (between : Between lower upper block) (bounded : block.Bounded) (back : Seg mem target upper 0) :
    FreeList (({ heap with mem := setNext mem block.addr target } : State π).store (linkAfter .head lower) block.addr).mem
      (({ heap with mem := setNext mem block.addr target } : State π).store (linkAfter .head lower) block.addr).freeList
      (lower ++ block :: upper) := by
  have changes := setNext_changes mem block target
  have kept := listed.changes changes (between_apart between)
  obtain ⟨middle, front, _⟩ := seg_append.mp kept.chain
  have small : target < 2 ^ 64 := by
    cases upper with
    | nil =>
      rw [show target = 0 from back]
      decide
    | cons other upper =>
      have limit := listed.bounded other (by simp)
      rw [back.1]
      simp only [Block.Bounded] at limit
      omega
  refine linked_in middle front ?_ kept.headers (marked.setNext target) listed.sorted between
    listed.bounded bounded
  rw [nextAt_setNext, Nat.mod_eq_of_lt small]
  exact back.changes changes (fun other member => between_apart between other (by simp [member]))

section
variable {fuel : Nat} {heap after : State π} {free : List Block} {block : Block}
  (list : FreeList heap.mem heap.freeList free) (size : sizeAt heap.mem block.addr = block.size)
  (bounded : block.Bounded) (apart : ∀ other ∈ free, block.span.Apart other.span)
include list size bounded apart

theorem insertFree_outcome (result : insertFree fuel block.addr heap = some after) :
    ∃ result, Outcome heap after block free result ∧ Coalesces block free result := by
  have marked := markFree_header size
  have marking := markFree_changes size
  have listed := list.changes marking (by simpa using apart)
  simp only [insertFree, bind_eq_bind, bind_eq_some_iff] at result
  obtain ⟨link, walked, result⟩ := result
  obtain ⟨lower, upper, rfl, rfl, low, high, back⟩ := seek_some .head listed.chain listed.bounded walked
  have between := between_of_apart apart (pairwise_append.mp listed.sorted).2.1 low high
  generalize markFree heap.mem block.addr = mem at *
  generalize State.load { heap with mem } (linkAfter .head lower) = target at *
  split at result
  next touches =>
    cases upper with
    | nil => exact absurd back touches.1
    | cons other upper =>
      obtain ⟨rfl, back⟩ := back
      have own := listed.headers other (by simp)
      simp only [Option.some.injEq, marked.size, own.size] at result touches
      have outcome := next_outcome marking marked listed between touches.2 bounded rfl
      exact ⟨_, result ▸ outcome, .next lower upper other touches.2⟩
  next gap =>
    have linked := @plain_linked _ heap _ _ _ _ _ marked listed between bounded back
    have noNext : ∀ other ∈ lower ++ upper, ¬block.Joins other := by
      intro other member joins
      rcases mem_append.mp member with low | high
      · exact (not_joins_of_sorted linked.sorted).1 other low joins
      · cases upper with
        | nil => cases high
        | cons first upper =>
          have positive := (listed.bounded first (by simp)).1
          rw [back.1, marked.size] at gap
          have header : headerSize = 24 := rfl
          have before := between.above first mem_cons_self
          rcases mem_cons.mp high with rfl | beyond
          · exact gap ⟨by omega, joins⟩
          · have later := (pairwise_cons.mp (pairwise_append.mp listed.sorted).2.1).1 other beyond
            simp only [Block.Before, Block.Joins] at before later joins
            omega
    obtain ⟨free, outcome, coalesces⟩ := coalescePrevious_outcome linked noNext result
    refine ⟨free, ⟨outcome.list, outcome.absorbs, ?_, ?_⟩, coalesces⟩
    · refine (((marking.trans (setNext_changes mem block target)).mono (by simp)).trans
        ((store_changes _ lower block.addr).mono ?_)).trans outcome.changes
      intro span member
      simp only [map_append, mem_cons, mem_append] at member ⊢
      exact .inr (.inl member)
    · simpa using outcome.rest

theorem insertFree_returns (enough : free.length + 1 < fuel) : ∃ after, insertFree fuel block.addr heap = some after := by
  have marked := markFree_header size
  have listed := list.changes (markFree_changes size) (by simpa using apart)
  obtain ⟨link, walked⟩ := seek_returns { heap with mem := markFree heap.mem block.addr }
    block.addr fuel .head listed.chain (by omega)
  obtain ⟨lower, upper, rfl, rfl, low, high, back⟩ := seek_some .head listed.chain listed.bounded walked
  have between := between_of_apart apart (pairwise_append.mp listed.sorted).2.1 low high
  simp only [insertFree, bind_eq_bind, walked, bind_some]
  split
  · exact ⟨_, rfl⟩
  · have linked := plain_linked marked listed between bounded back
    unfold coalescePrevious
    split
    · exact ⟨_, rfl⟩
    · obtain ⟨found, walked⟩ := findPrevious_returns block.addr fuel linked.chain
        (by simp only [length_append, length_cons] at enough ⊢; omega)
      simp only [bind_eq_bind, walked, bind_some]
      split
      · exact ⟨_, rfl⟩
      · exact ⟨_, rfl⟩

end

private theorem seek_below {address : Nat} {link found : Link}
    (start : ∀ block, link = .next block → block < address) (result : seek heap address fuel link = some found) :
    ∀ block, found = .next block → block < address := by
  induction fuel generalizing link with
  | zero => cases result
  | succ fuel ih =>
    simp only [seek] at result
    split at result
    next continues =>
      refine ih ?_ result
      intro block same
      cases same
      exact continues.2
    next =>
      cases result
      exact start

private theorem store_above {link : Link} {block : Nat} (below : ∀ linked, link = .next linked → linked < block)
    (high : block + 16 ≤ place) : (heap.store link value).mem place = heap.mem place := by
  cases link with
  | head => rfl
  | next linked =>
    have less := below linked rfl
    exact if_neg (by omega)

private theorem setSize_above (mem : Mem) {block : Nat} (high : block + 8 ≤ place) :
    setSize mem block value place = mem place :=
  if_neg (by omega)

private theorem setNext_above (mem : Mem) {block : Nat} (high : block + 16 ≤ place) :
    setNext mem block value place = mem place :=
  if_neg (by omega)

theorem insertFree_above {block : Nat} {after : State π} (result : insertFree fuel block heap = some after)
    (high : block + 16 ≤ place) : after.mem place = markFree heap.mem block place := by
  have header : headerSize = 24 := rfl
  simp only [insertFree, bind_eq_bind, bind_eq_some_iff] at result
  obtain ⟨link, walked, result⟩ := result
  have below := seek_below (fun _ same => by cases same) walked
  split at result
  next =>
    simp only [Option.some.injEq] at result
    rw [← result, store_above below high]
    exact (setNext_above _ high).trans (setSize_above _ (by omega))
  next =>
    have linked : ∀ {current : Nat}, (State.store { heap with mem := setNext (markFree heap.mem block) block current }
        link block).mem place = markFree heap.mem block place := by
      intro current
      rw [store_above below high]
      exact setNext_above _ high
    simp only [coalescePrevious] at result
    split at result
    · cases result
      exact linked
    · simp only [bind_eq_bind, bind_eq_some_iff] at result
      obtain ⟨previous, -, result⟩ := result
      split at result
      next touches =>
        simp only [Option.some.injEq] at result
        rw [← result]
        exact (setNext_above _ (by omega)).trans ((setSize_above _ (by omega)).trans linked)
      next =>
        cases result
        exact linked

theorem insertFree_canary {block : Nat} {after : State π} (result : insertFree fuel block heap = some after) :
    canaryAt after.mem block = not32 heapMagicFree := by
  refine (Mem.Agree.le_eq fun place low _ => ?_).trans (markFree_canary heap.mem block)
  exact insertFree_above result low

end GWKernel.Heap
