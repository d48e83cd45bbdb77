import GWKernel.Proofs.HeapLeases

/-! Freeing a pointer twice. `kfree` takes the eight bytes in front of the pointer for the address
of a block; after the first `kfree` they are a canary. -/

namespace GWKernel.Heap
open Lib Pmm

variable {π : Type}

/-- The bytes that `kfree` reads before it reports the pointer or goes on to `insert_free`. -/
def kfreeReads (mem : Mem) (ptr : Nat) : List Span :=
  let block := u64 (ptr + 2 ^ 64 - headerSize)
  let slot := u64 (ptr + 2 ^ 64 - 8)
  let candidate := mem.le slot 8
  let header (block : Nat) : List Span :=
    ⟨block, 4⟩ :: if magicAt mem block = heapMagicAlloc then [⟨block + 16, 4⟩] else []
  header block ++
    if isAllocated mem block then []
    else ⟨slot, 8⟩ :: if candidate = 0 then [] else header candidate

def Within (regions : List Span) (span : Span) : Prop :=
  ∀ place, span.Holds place → ∃ region ∈ regions, region.Holds place

/-- `kfree` changes nothing and looks at nothing outside the regions of the heap. -/
def Harmless (heap : State (π × List Span)) (ptr : Nat) : Prop :=
  (∀ fuel, kfree fuel ptr heap = some heap) ∧ ∀ span ∈ kfreeReads heap.mem ptr, Within heap.pmm.2 span

/-- What stands in front of the pointer is no allocated header, and the address of a block there
is null or that of heap bytes that are no allocated header. -/
def Unmistakable (heap : State (π × List Span)) (ptr : Nat) : Prop :=
  let candidate := heap.mem.le (ptr - 8) 8
  isAllocated heap.mem (ptr - headerSize) = false ∧
    (candidate = 0 ∨ Within heap.pmm.2 ⟨candidate, 4⟩ ∧
      (magicAt heap.mem candidate = heapMagicAlloc →
        Within heap.pmm.2 ⟨candidate + 16, 4⟩ ∧ canaryAt heap.mem candidate ≠ not32 heapMagicAlloc))

theorem insertFree_changes_header {fuel block : Nat} {heap before after : State π}
    (result : insertFree fuel block heap = some after) (allocated : isAllocated before.mem block = true) :
    after ≠ before := by
  rintro rfl
  have canary := insertFree_canary result
  simp only [isAllocated, Bool.and_eq_true, decide_eq_true_eq] at allocated
  exact absurd (allocated.2.symm.trans canary) (by decide)

section
variable {heap : State (π × List Span)} {ptr : Nat} (active : heap.ready = true) (low : headerSize ≤ ptr)
  (high : ptr < 2 ^ 64)
include low high

private theorem before_ptr : u64 (ptr + 2 ^ 64 - headerSize) = ptr - headerSize ∧ u64 (ptr + 2 ^ 64 - 8) = ptr - 8 := by
  simp only [u64, headerSize] at *
  omega

include active

theorem kfree_unchanged_iff :
    (∀ fuel, kfree fuel ptr heap = some heap) ↔ isAllocated heap.mem (ptr - headerSize) = false ∧
      (heap.mem.le (ptr - 8) 8 = 0 ∨ isAllocated heap.mem (heap.mem.le (ptr - 8) 8) = false) := by
  obtain ⟨block, slot⟩ := before_ptr low high
  have nonzero : ptr ≠ 0 := by
    simp only [headerSize] at low
    omega
  simp only [kfree, nonzero, active, Bool.true_eq_false, or_self, if_false, blockOf, block, slot]
  cases first : isAllocated heap.mem (ptr - headerSize) with
  | true =>
    simp only [if_true, Bool.true_eq_false, false_and, iff_false, not_forall]
    exact ⟨0, fun same => insertFree_changes_header same first rfl⟩
  | false =>
    simp only [Bool.false_eq_true, if_false, true_and]
    cases second : isAllocated heap.mem (heap.mem.le (ptr - 8) 8) with
    | true =>
      by_cases null : heap.mem.le (ptr - 8) 8 = 0
      · simp [null]
      · simp only [ne_eq, null, not_false_eq_true, decide_true, Bool.and_self, if_true, Bool.true_eq_false, or_self,
          iff_false, not_forall]
        exact ⟨0, fun same => insertFree_changes_header same second rfl⟩
    | false => simp

theorem harmless_iff (own : Within heap.pmm.2 ⟨ptr - headerSize, headerSize⟩) :
    Harmless heap ptr ↔ Unmistakable heap ptr := by
  obtain ⟨block, slot⟩ := before_ptr low high
  have header : headerSize = 24 := rfl
  have part : ∀ {start size : Nat}, ptr - headerSize ≤ start → start + size ≤ ptr → Within heap.pmm.2 ⟨start, size⟩ :=
    fun above below place holds => own place ⟨Nat.le_trans above holds.1, by
      have last := holds.2
      dsimp only at last ⊢
      omega⟩
  rw [Harmless, kfree_unchanged_iff active low high, Unmistakable]
  simp only [kfreeReads, block, slot]
  generalize heap.mem.le (ptr - 8) 8 = candidate
  cases isAllocated heap.mem (ptr - headerSize) with
  | true => simp
  | false =>
    have allocated : isAllocated heap.mem candidate = false ↔
        (magicAt heap.mem candidate = heapMagicAlloc → canaryAt heap.mem candidate ≠ not32 heapMagicAlloc) := by
      simp [isAllocated]
    have magic : Within heap.pmm.2 ⟨ptr - headerSize, 4⟩ := part (Nat.le_refl _) (by omega)
    have canary : Within heap.pmm.2 ⟨ptr - headerSize + 16, 4⟩ := part (by omega) (by omega)
    have record : Within heap.pmm.2 ⟨ptr - 8, 8⟩ := part (by omega) (by omega)
    have listed : ∀ {block : Nat}, (∀ span ∈ ((⟨block, 4⟩ : Span) ::
        if magicAt heap.mem block = heapMagicAlloc then [⟨block + 16, 4⟩] else []), Within heap.pmm.2 span) ↔
        Within heap.pmm.2 ⟨block, 4⟩ ∧
          (magicAt heap.mem block = heapMagicAlloc → Within heap.pmm.2 ⟨block + 16, 4⟩) := by
      intro block
      split <;> simp [*]
    simp only [Bool.false_eq_true, if_false, true_and, allocated, List.forall_mem_append, listed, magic, canary,
      implies_true]
    rw [List.forall_mem_cons]
    simp only [record, true_and]
    by_cases null : candidate = 0
    · simp only [null, if_true, true_or, List.not_mem_nil, false_implies, implies_true, and_self]
    · simp only [null, if_false, false_or, listed]
      constructor
      · rintro ⟨differs, inside, last⟩
        exact ⟨inside, fun same => ⟨last same, differs same⟩⟩
      · rintro ⟨inside, rest⟩
        exact ⟨fun same => (rest same).2, inside, fun same => (rest same).1⟩

end

/-- A second `kfree` of a pointer that was live before is harmless exactly when what it reads in
front of the pointer cannot be mistaken for a block. -/
theorem second_kfree_harmless_iff {allocPages : PageSource π} {owns : π → List Span → Prop}
    (contract : PageContract allocPages owns) {fuel : Nat} {boot heap : State (π × List Span)}
    (fresh : boot.pmm.2 = []) (held : owns boot.pmm.1 [])
    (started : heapInit (traced allocPages) fuel boot = some (true, heap)) {before after : List Request}
    {middle arena : Arena π} (run : Run (Arena.Step allocPages) ⟨heap, []⟩ before middle) {lease : Lease}
    (live : lease ∈ middle.leases) (rest : Run (Arena.Step allocPages) middle after arena) :
    Harmless arena.heap lease.ptr ↔ Unmistakable arena.heap lease.ptr := by
  obtain ⟨free, sound⟩ := Arena.Sound.reached contract fresh held started run
  have kept : (∃ free, arena.Sound owns free) ∧ middle.heap.pmm.2 ⊆ arena.heap.pmm.2 := by
    refine @Run.preserves _ _ _ (fun later => (∃ free, later.Sound owns free) ∧ middle.heap.pmm.2 ⊆ later.heap.pmm.2)
      ?_ _ _ _ rest ⟨⟨free, sound⟩, List.Subset.refl _⟩
    rintro _ _ _ ⟨⟨_, sound⟩, kept⟩ moves
    exact ⟨Arena.Sound.step contract ⟨_, sound⟩ moves, List.Subset.trans kept (sound.regions_kept contract moves)⟩
  obtain ⟨⟨_, later⟩, regions⟩ := kept
  have low := (sound.valid lease live).low
  have room := sound.layout.room _ (Arena.Sound.mem_owned live)
  have bounded := sound.layout.bounded (mem_spansOf_owned (Arena.Sound.mem_owned live))
  simp only [Lease.owned, Block.Bounded] at room bounded
  refine harmless_iff later.ready (by omega) (by omega) fun place holds => ?_
  have inside : lease.block.span.Holds place := by
    simp only [Span.Holds, Block.span_start, Block.span_size] at holds ⊢
    omega
  obtain ⟨region, listed, holds⟩ := (sound.layout.tiles.covers place).mp
    ⟨lease.block.span, mem_spansOf_owned (Arena.Sound.mem_owned live), inside⟩
  exact ⟨region, regions listed, holds⟩

theorem second_kfree_harmless_one : ∃ (heap : State (List Nat × List Span)) (middle arena : Arena (List Nat)),
    heapInit (traced scripted) 8 ⟨fun _ => 0, 0, 0, 0, false, [0x0B118000], []⟩ = some (true, heap) ∧
      Run (Arena.Step scripted) ⟨heap, []⟩ [.allocate 32 16] middle ∧
      Run (Arena.Step scripted) middle [.free 0x0B118018] arena ∧ Harmless arena.heap 0x0B118018 := by
  have facts : (Arena.replay scripted 8 [0x0B118000] [.allocate 32 16]).bind (fun middle =>
      (middle.next scripted 8 (.free 0x0B118018)).map fun arena =>
        (middle.leases, arena.heap.pmm.2, arena.heap.mem.le (0x0B118018 - 8) 8, magicAt arena.heap.mem 0x0B11FFFF,
          isAllocated arena.heap.mem (0x0B118018 - 24))) =
      some ([⟨0x0B118018, 32, 0x0B118000, 32⟩], [⟨0x0B118000, 0x10000⟩], 0x0B11FFFF, 0xDCDCDCDC, false) := by
    decide +kernel
  obtain ⟨middle, replayed, facts⟩ := Option.bind_eq_some_iff.mp facts
  obtain ⟨arena, moved, facts⟩ := Option.map_eq_some_iff.mp facts
  simp only [Prod.mk.injEq] at facts
  obtain ⟨leases, regions, candidate, magic, header⟩ := facts
  obtain ⟨heap, started, run⟩ := Arena.replay_run _ _ replayed
  have owns : ScriptOwns [0x0B118000] [] := ⟨by simp, by decide⟩
  have rest : Run (Arena.Step scripted) middle [.free 0x0B118018] arena := .next (Arena.next_step _ _ moved) (.done _)
  refine ⟨heap, middle, arena, started, run, rest, ?_⟩
  have live : (⟨0x0B118018, 32, 0x0B118000, 32⟩ : Lease) ∈ middle.leases := by simp [leases]
  refine (second_kfree_harmless_iff scripted_contract rfl owns started run live rest).mpr ?_
  simp only [Unmistakable, headerSize, candidate, header, magic, regions]
  refine ⟨trivial, .inr ⟨fun place holds => ⟨_, List.mem_cons_self, ?_⟩, fun same => absurd same (by decide)⟩⟩
  obtain ⟨low, high⟩ := holds
  dsimp only [Span.Holds] at low high ⊢
  omega

/-- The second `kfree` follows the canary of the free block to an address that is not the heap's.
-/
theorem second_kfree_leaves_heap : ∃ (heap : State (Pmm.State × List Span)) (arena : Arena Pmm.State),
    heapInit (traced pmmAllocPages) 8 ⟨fun _ => 0, 0, 0, 0, false, smallPmm, []⟩ = some (true, heap) ∧
      Run (Arena.Step pmmAllocPages) ⟨heap, []⟩ [.allocate 32 16, .free 0x100018] arena ∧
      arena.heap.pmm.2 = [⟨0x100000, 0x10000⟩] ∧ ⟨0x0B11FFFF, 4⟩ ∈ kfreeReads arena.heap.mem 0x100018 := by
  have facts : (Arena.replay pmmAllocPages 8 smallPmm [.allocate 32 16, .free 0x100018]).map (fun arena =>
      (arena.heap.pmm.2, decide (⟨0x0B11FFFF, 4⟩ ∈ kfreeReads arena.heap.mem 0x100018))) =
      some ([⟨0x100000, 0x10000⟩], true) := by decide +kernel
  obtain ⟨arena, replayed, facts⟩ := Option.map_eq_some_iff.mp facts
  obtain ⟨regions, follows⟩ := Prod.mk.inj facts
  obtain ⟨heap, started, run⟩ := Arena.replay_run _ _ replayed
  exact ⟨heap, arena, started, run, regions, of_decide_eq_true follows⟩

end GWKernel.Heap
