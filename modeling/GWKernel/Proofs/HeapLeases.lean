import GWKernel.Proofs.HeapSafety

/-! Runs that mix `kmalloc`, `kmalloc_aligned` and `kfree`. The eight bytes in front of an
over-aligned pointer hold the address of its block. -/

namespace GWKernel.Heap
open Lib Pmm List

variable {π : Type}

def leaseOf (mem : Mem) (size align ptr : Nat) : Lease :=
  let block := if heapAlign < effectiveAlign align then mem.le (ptr - 8) 8 else ptr - headerSize
  ⟨ptr, size, block, sizeAt mem block⟩

structure Arena (π : Type) where
  heap : State (π × List Span)
  leases : List Lease

inductive Request where
  | allocate (size align : Nat)
  | free (ptr : Nat)
  | write (address value : Nat)

def Exhausted (allocPages : PageSource π) (heap : State (π × List Span)) (fuel need : Nat) : Prop :=
  firstFit heap need fuel .head = some .absent ∧ (allocPages (expandPages need) heap.pmm.1).1 = 0

theorem Exhausted.returns {heap : State (π × List Span)} {fuel need : Nat}
    (exhausted : Exhausted allocPages heap fuel need) (size align : Nat) :
    kmallocLoop (traced allocPages) fuel size align need fuel heap =
      some (0, { heap with pmm := ((allocPages (expandPages need) heap.pmm.1).2, heap.pmm.2) }) := by
  obtain ⟨absent, refused⟩ := exhausted
  cases fuel with
  | zero => cases absent
  | succ fuel => simp [kmallocLoop, absent, expandHeap, traced, refused]

/-- One call, or one byte written by its owner. `kmalloc` is `kmalloc_aligned` with alignment 16.
-/
inductive Arena.Step (allocPages : PageSource π) : Arena π → Request → Arena π → Prop where
  | allocate {arena : Arena π} {fuel size align ptr : Nat} {after : State (π × List Span)}
      (fair : Covered size align ∨ Exhausted allocPages arena.heap fuel (needFor size align))
      (returned : kmallocAligned (traced allocPages) fuel size align arena.heap = some (ptr, after)) :
      Arena.Step allocPages arena (.allocate size align)
        ⟨after, if ptr = 0 then arena.leases else leaseOf after.mem size align ptr :: arena.leases⟩
  | free {arena : Arena π} {fuel : Nat} {lease : Lease} {after : State (π × List Span)} (held : lease ∈ arena.leases)
      (clear : lease.Clear arena.heap.mem) (returned : kfree fuel lease.ptr arena.heap = some after) :
      Arena.Step allocPages arena (.free lease.ptr) ⟨after, arena.leases.erase lease⟩
  | write {arena : Arena π} {lease : Lease} {address value : Nat} (held : lease ∈ arena.leases)
      (low : lease.ptr ≤ address) (high : address < lease.ptr + lease.size) :
      Arena.Step allocPages arena (.write address value)
        ⟨{ arena.heap with mem := arena.heap.mem.put address 1 value }, arena.leases⟩

structure Arena.Sound (owns : π → List Span → Prop) (arena : Arena π) (free : List Block) : Prop where
  ready : arena.heap.ready = true
  layout : Layout arena.heap [] free (arena.leases.map Lease.owned)
  valid : ∀ lease ∈ arena.leases, lease.Valid arena.heap.mem
  held : owns arena.heap.pmm.1 arena.heap.pmm.2

section
variable {allocPages : PageSource π} {owns : π → List Span → Prop} {arena : Arena π} {free : List Block}
  {after : State (π × List Span)} {lease : Lease}

theorem Lease.Valid.frame {before mem : Mem} (valid : lease.Valid before) (room : lease.owned.requested ≤ lease.block.size)
    (same : Mem.Agree mem before lease.block.addr (headerSize + lease.block.size)) : lease.Valid mem := by
  refine ⟨valid.low, valid.stamp.imp id fun ⟨behind, stamp⟩ => ⟨behind, ?_⟩⟩
  simp only [Lease.owned] at room
  exact (same.within (by omega) (by omega)).le_eq.trans stamp

theorem Arena.Sound.mem_owned (held : lease ∈ arena.leases) : lease.owned ∈ arena.leases.map Lease.owned :=
  List.mem_map_of_mem held

theorem Arena.Sound.valid_after (sound : arena.Sound owns free) {mem : Mem}
    (quiet : Undisturbed (arena.leases.map Lease.owned) arena.heap.mem mem) :
    ∀ lease ∈ arena.leases, lease.Valid mem :=
  fun lease held => (sound.valid lease held).frame (sound.layout.room _ (mem_owned held)) (quiet _ (mem_owned held))

variable {fuel : Nat}

section
variable (contract : PageContract allocPages owns)
include contract

section
variable (sound : arena.Sound owns free)
include sound

theorem Arena.Sound.granted {size align ptr : Nat} (covered : Covered size align)
    (returned : kmallocAligned (traced allocPages) fuel size align arena.heap = some (ptr, after))
    (nonzero : ptr ≠ 0) :
    let lease := leaseOf after.mem size align ptr
    (∃ rest, Arena.Sound owns ⟨after, lease :: arena.leases⟩ rest) ∧
      (heapAlign < effectiveAlign align → lease.block.addr + headerSize + 8 ≤ ptr ∧ effectiveAlign align ∣ ptr) := by
  intro lease
  have some' : size ≠ 0 := by
    rintro rfl
    rw [kmallocAligned_idle align fuel (.inr rfl)] at returned
    cases returned
    exact nonzero rfl
  rw [kmallocAligned_eq align fuel sound.ready some'] at returned
  obtain ⟨quiet, _, held, ready, rest, ⟨zero, _⟩ | ⟨taken, is, room, layout, stamp⟩⟩ :=
    kmallocLoop_leases contract sound.layout sound.held covered returned
  · exact absurd zero nonzero
  have bounded := layout.bounded (mem_spansOf_owned mem_cons_self)
  simp only [Block.Bounded] at bounded
  obtain ⟨low, -, behind⟩ := @Covered.extent size align taken.addr covered (by omega)
  rw [← is] at low behind
  have same : lease = ⟨ptr, size, taken⟩ := by
    have size := (layout.headers _ mem_cons_self).size
    simp only [lease, leaseOf]
    split
    next beyond => rw [stamp beyond, size]
    next plain => rw [is, pointerFor, if_neg plain, Nat.add_sub_cancel, size]
  rw [same]
  refine ⟨⟨rest, ready.trans sound.ready, layout, ?_, held⟩, behind⟩
  intro other listed
  rcases mem_cons.mp listed with rfl | listed
  · refine ⟨low, ?_⟩
    by_cases beyond : heapAlign < effectiveAlign align
    · exact .inr ⟨(behind beyond).1, stamp beyond⟩
    · exact .inl (by rw [is, pointerFor, if_neg beyond])
  · exact sound.valid_after quiet other listed

theorem Arena.Sound.allocate
    {size align ptr : Nat} (fair : Covered size align ∨ Exhausted allocPages arena.heap fuel (needFor size align))
    (returned : kmallocAligned (traced allocPages) fuel size align arena.heap = some (ptr, after)) :
    (∃ rest, Arena.Sound owns
      ⟨after, if ptr = 0 then arena.leases else leaseOf after.mem size align ptr :: arena.leases⟩ rest) ∧
        arena.heap.pmm.2 ⊆ after.pmm.2 := by
  by_cases zero : size = 0
  · rw [kmallocAligned_idle align fuel (.inr zero)] at returned
    cases returned
    exact ⟨⟨free, sound⟩, fun _ listed => listed⟩
  rcases fair with covered | exhausted
  · have loop := returned
    rw [kmallocAligned_eq align fuel sound.ready zero] at loop
    obtain ⟨quiet, regions, held, ready, rest, outcome⟩ :=
      kmallocLoop_leases contract sound.layout sound.held covered loop
    refine ⟨?_, regions⟩
    by_cases null : ptr = 0
    · rcases outcome with ⟨_, layout⟩ | ⟨taken, is, room, layout, _⟩
      · rw [if_pos null]
        exact ⟨rest, ready.trans sound.ready, layout, sound.valid_after quiet, held⟩
      · have bounded := layout.bounded (mem_spansOf_owned mem_cons_self)
        simp only [Block.Bounded] at bounded
        obtain ⟨low, -, -⟩ := @Covered.extent size align taken.addr covered (by omega)
        omega
    · rw [if_neg null]
      exact (sound.granted contract covered returned null).1
  · rw [kmallocAligned_eq align fuel sound.ready zero, exhausted.returns] at returned
    cases returned
    exact ⟨⟨free, sound.ready, sound.layout.repaged _, sound.valid, contract.refuse sound.held exhausted.2⟩,
      fun _ listed => listed⟩

omit contract in
theorem Arena.Sound.kfree_eq (held : lease ∈ arena.leases)
    (clear : lease.Clear arena.heap.mem) (fuel : Nat) :
    kfree fuel lease.ptr arena.heap =
      insertFree fuel lease.block.addr
        { arena.heap with used := arena.heap.used - (lease.block.size + headerSize) } :=
  sound.layout.kfree_eq lease sound.ready (mem_owned held) (sound.valid lease held) clear fuel

omit contract in
theorem Arena.Sound.released (held : lease ∈ arena.leases)
    (clear : lease.Clear arena.heap.mem) (returned : kfree fuel lease.ptr arena.heap = some after) :
    after.pmm = arena.heap.pmm ∧
      ∃ rest, Coalesces lease.block free rest ∧ Arena.Sound owns ⟨after, arena.leases.erase lease⟩ rest := by
  have order := (perm_cons_erase held).map Lease.owned
  have disowned := sound.layout.disown order
  have size := (sound.layout.headers _ (mem_owned held)).size
  rw [sound.kfree_eq held clear] at returned
  obtain ⟨rest, layout, pmm, ready, coalesces, changes⟩ := disowned.insertFree size returned
  have quiet := disowned.undisturbed changes fun span changed => .inl (by simpa [Lease.owned] using changed)
  refine ⟨pmm, rest, coalesces, ready.trans sound.ready, layout, fun other listed => ?_, by rw [pmm]; exact sound.held⟩
  have still := mem_of_mem_erase listed
  exact (sound.valid other still).frame (sound.layout.room _ (mem_owned still))
    (quiet _ (List.mem_map_of_mem listed))

omit contract in
theorem Arena.Sound.write (held : lease ∈ arena.leases) {address value : Nat}
    (low : lease.ptr ≤ address) (high : address < lease.ptr + lease.size) :
    Arena.Sound owns ⟨{ arena.heap with mem := arena.heap.mem.put address 1 value }, arena.leases⟩ free := by
  have base := (sound.valid lease held).low
  have room := sound.layout.room _ (mem_owned held)
  simp only [Lease.owned] at room
  refine ⟨sound.ready, sound.layout.write_owned (mem_owned held) (by simp only [Lease.owned]; omega)
    (by simp only [Lease.owned]; omega) value, fun other listed => ?_, sound.held⟩
  obtain ⟨start, stamp⟩ := sound.valid other listed
  refine ⟨start, stamp.imp id fun behind => ⟨behind.1, ?_⟩⟩
  refine (Mem.le_put_apart _ _ _ _ ?_).trans behind.2
  by_cases same : other = lease
  · subst same
    exact .inl (by omega)
  · obtain ⟨_, apart, _⟩ := pairwise_append.mp (pairwise_append.mp sound.layout.tiles.apart).2.1
    have : Std.Symm fun first second : Lease => first.owned.block.span.Apart second.owned.block.span :=
      ⟨fun _ _ gap => gap.symm⟩
    have gap := (pairwise_map.mp (pairwise_map.mp apart)).forall listed held same
    have inside := sound.layout.room _ (mem_owned listed)
    simp only [Lease.owned, Span.Apart, Block.span_start, Block.span_size] at gap inside
    omega

end

theorem Arena.Sound.step {before later : Arena π} {request : Request}
    (sound : ∃ free, before.Sound owns free) (moves : Arena.Step allocPages before request later) :
    ∃ free, later.Sound owns free := by
  obtain ⟨free, sound⟩ := sound
  cases moves with
  | allocate fair returned => exact (sound.allocate contract fair returned).1
  | free held clear returned =>
    obtain ⟨-, rest, -, sound⟩ := sound.released held clear returned
    exact ⟨rest, sound⟩
  | write held low high => exact ⟨free, sound.write held low high⟩

theorem Arena.Sound.regions_kept {before later : Arena π} {request : Request}
    (sound : before.Sound owns free) (moves : Arena.Step allocPages before request later) :
    before.heap.pmm.2 ⊆ later.heap.pmm.2 := by
  cases moves with
  | allocate fair returned => exact (sound.allocate contract fair returned).2
  | free held clear returned =>
    rw [(sound.released held clear returned).1]
    exact fun _ listed => listed
  | write held low high => exact fun _ listed => listed

theorem Arena.Sound.reached {boot heap : State (π × List Span)}
    (fresh : boot.pmm.2 = []) (held : owns boot.pmm.1 [])
    (started : heapInit (traced allocPages) fuel boot = some (true, heap)) {requests : List Request}
    (run : Run (Arena.Step allocPages) ⟨heap, []⟩ requests arena) : ∃ free, arena.Sound owns free := by
  refine run.preserves (fun _ _ _ sound moves => Arena.Sound.step contract sound moves) ?_
  obtain ⟨free, owned, sound⟩ := heapInit_sound contract fresh held started
  obtain rfl : owned = [] := by simpa using sound.live
  exact ⟨free, sound.ready, sound.layout, by simp, sound.held⟩

end

end

/-- The free list visits `free`, every lease lies in the payload of a block with an allocated
header, and the blocks tile the granted regions. -/
structure Arena.Consistent (arena : Arena π) (free : List Block) : Prop where
  list : FreeList arena.heap.mem arena.heap.freeList free
  headers : ∀ lease ∈ arena.leases, Header arena.heap.mem heapMagicAlloc lease.block
  inside : ∀ lease ∈ arena.leases, lease.block.addr + headerSize ≤ lease.ptr ∧
    lease.ptr + lease.size ≤ lease.block.addr + headerSize + lease.block.size
  tiles : Tiles (free.map Block.span ++ arena.leases.map fun lease => lease.block.span) arena.heap.pmm.2

/-- `kfree` of the pointer does what `insert_free` of its block does, and the block is free. -/
def Lease.Returns (arena : Arena π) (free : List Block) (lease : Lease) : Prop :=
  ∀ fuel, 2 ^ 32 ≤ fuel → ∃ after rest, kfree fuel lease.ptr arena.heap = some after ∧
    insertFree fuel lease.block.addr
      { arena.heap with used := arena.heap.used - (lease.block.size + headerSize) } = some after ∧
    Coalesces lease.block free rest ∧ Arena.Consistent ⟨after, arena.leases.erase lease⟩ rest

section
variable {allocPages : PageSource π} {owns : π → List Span → Prop} {arena : Arena π} {free : List Block}
  {lease : Lease}

theorem Arena.Sound.consistent (sound : arena.Sound owns free) : arena.Consistent free := by
  refine ⟨sound.layout.list, fun lease held => sound.layout.headers _ (mem_owned held), fun lease held => ?_, ?_⟩
  · have low := (sound.valid lease held).low
    have room := sound.layout.room _ (mem_owned held)
    simp only [Lease.owned] at room
    exact ⟨low, by omega⟩
  · have tiles := sound.layout.tiles
    rw [spansOf, List.map_map] at tiles
    exact tiles

theorem Arena.Sound.returns_iff (sound : arena.Sound owns free) (held : lease ∈ arena.leases)
    (beyond : lease.ptr ≠ lease.block.addr + headerSize) :
    lease.Returns arena free ↔ isAllocated arena.heap.mem (lease.ptr - headerSize) = false := by
  have header : headerSize = 24 := rfl
  have size : sizeAt arena.heap.mem lease.block.addr = lease.block.size :=
    (sound.layout.headers _ (mem_owned held)).size
  constructor
  · intro returns
    obtain ⟨after, rest, freed, inserted, _, _⟩ := returns (2 ^ 32) (Nat.le_refl _)
    have room := sound.layout.room _ (mem_owned held)
    have bounded := sound.layout.bounded (mem_spansOf_owned (mem_owned held))
    have behind := ((sound.valid lease held).stamp.resolve_left beyond).1
    simp only [Lease.owned, Block.Bounded] at room bounded
    by_contra allocated
    -- Taken for a block, the bytes in front of the pointer get a canary where the block itself
    -- would be poisoned.
    have before : u64 (lease.ptr + 2 ^ 64 - headerSize) = lease.ptr - headerSize := by
      simp only [u64]
      omega
    have nonzero : lease.ptr ≠ 0 := by omega
    simp only [kfree, nonzero, sound.ready, Bool.true_eq_false, or_self, if_false, blockOf, before,
      Bool.not_eq_false _ ▸ allocated, if_true] at freed
    have canary := insertFree_canary freed
    have poison : canaryAt after.mem (lease.ptr - headerSize) = 0xDCDCDCDC := by
      have bytes : Mem.Agree after.mem (fun _ => heapPoisonFree) (lease.ptr - headerSize + 16) 4 := by
        intro place low high
        rw [insertFree_above inserted (by omega)]
        exact markFree_poison (by omega) (by simp only [size]; omega)
      exact bytes.le_eq.trans (by simp [Mem.le, heapPoisonFree])
    rw [poison] at canary
    exact absurd canary (by decide)
  · intro clear fuel enough
    obtain ⟨after, inserted⟩ := (sound.layout.disown ((perm_cons_erase held).map Lease.owned)).insertFree_returns
      size enough
    have same := sound.kfree_eq held (.inr clear) fuel
    obtain ⟨-, rest, coalesces, later⟩ := sound.released held (.inr clear) (same.trans inserted)
    exact ⟨after, rest, same.trans inserted, inserted, coalesces, later.consistent⟩

theorem effectiveAlign_power {align : Nat} (power : isPowerOfTwo align = true) (large : heapAlign < align) :
    effectiveAlign align = align := by
  have above : ¬align < heapAlign := by omega
  simp [effectiveAlign, power, above]

/-- An over-aligned pointer comes aligned and with its bytes, and the eight in front of them, in
the payload of its block; `kfree` returns exactly this block when, and only when, the 24 bytes in
front do not look like an allocated header. -/
theorem overaligned_returned_iff (contract : PageContract allocPages owns) {fuel : Nat}
    {boot heap : State (π × List Span)} (fresh : boot.pmm.2 = []) (held : owns boot.pmm.1 [])
    (started : heapInit (traced allocPages) fuel boot = some (true, heap)) {requests : List Request}
    (run : Run (Arena.Step allocPages) ⟨heap, []⟩ requests arena) :
    ∃ free, arena.Consistent free ∧
      (∀ fuel size align ptr after, isPowerOfTwo align = true → heapAlign < align → size + align + 128 < 2 ^ 64 →
        kmallocAligned (traced allocPages) fuel size align arena.heap = some (ptr, after) → ptr ≠ 0 →
        let lease := leaseOf after.mem size align ptr
        align ∣ ptr ∧ lease.block.addr + headerSize + 8 ≤ ptr ∧
          ∃ rest, Arena.Consistent ⟨after, lease :: arena.leases⟩ rest) ∧
      ∀ lease ∈ arena.leases, lease.ptr ≠ lease.block.addr + headerSize →
        (lease.Returns arena free ↔ isAllocated arena.heap.mem (lease.ptr - headerSize) = false) := by
  obtain ⟨free, sound⟩ := Arena.Sound.reached contract fresh held started run
  refine ⟨free, sound.consistent, fun fuel size align ptr after power large small returned nonzero => ?_,
    fun lease held beyond => sound.returns_iff held beyond⟩
  have same := effectiveAlign_power power large
  have covered : Covered size align := by
    rw [Covered, same, if_pos large]
    omega
  obtain ⟨⟨rest, later⟩, behind⟩ := sound.granted contract covered returned nonzero
  rw [same] at behind
  exact ⟨(behind large).2, (behind large).1, rest, later.consistent⟩

end

instance (size align : Nat) : Decidable (Covered size align) :=
  if beyond : heapAlign < effectiveAlign align then
    decidable_of_iff (size + effectiveAlign align + 8 < 2 ^ 64) (by rw [Covered, if_pos beyond])
  else decidable_of_iff (size + heapAlign ≤ 2 ^ 64) (by rw [Covered, if_neg beyond])

instance (mem : Mem) (lease : Lease) : Decidable (lease.Clear mem) := inferInstanceAs (Decidable (_ ∨ _))

section
variable (allocPages : PageSource π) (fuel : Nat)

def Arena.next (arena : Arena π) : Request → Option (Arena π)
  | .allocate size align =>
    if Covered size align then
      (kmallocAligned (traced allocPages) fuel size align arena.heap).map fun (ptr, after) =>
        ⟨after, if ptr = 0 then arena.leases else leaseOf after.mem size align ptr :: arena.leases⟩
    else none
  | .free ptr => do
    let lease ← arena.leases.find? fun lease => lease.ptr = ptr
    if lease.Clear arena.heap.mem then
      (kfree fuel ptr arena.heap).map fun after => ⟨after, arena.leases.erase lease⟩
    else none
  | .write address value => do
    let _ ← arena.leases.find? fun lease => lease.ptr ≤ address ∧ address < lease.ptr + lease.size
    some ⟨{ arena.heap with mem := arena.heap.mem.put address 1 value }, arena.leases⟩

theorem Arena.next_step {arena later : Arena π} {request : Request}
    (moves : arena.next allocPages fuel request = some later) : Arena.Step allocPages arena request later := by
  cases request with
  | allocate size align =>
    simp only [Arena.next] at moves
    split at moves
    next covered =>
      obtain ⟨⟨ptr, after⟩, returned, rfl⟩ := Option.map_eq_some_iff.mp moves
      exact .allocate (.inl covered) returned
    next => cases moves
  | free ptr =>
    simp only [Arena.next, Option.bind_eq_bind, Option.bind_eq_some_iff] at moves
    obtain ⟨lease, found, moves⟩ := moves
    have same : lease.ptr = ptr := by simpa using find?_some found
    subst same
    split at moves
    next clear =>
      obtain ⟨after, returned, rfl⟩ := Option.map_eq_some_iff.mp moves
      exact .free (mem_of_find?_eq_some found) clear returned
    next => cases moves
  | write address value =>
    simp only [Arena.next, Option.bind_eq_bind, Option.bind_eq_some_iff, Option.some.injEq] at moves
    obtain ⟨lease, found, rfl⟩ := moves
    have inside : lease.ptr ≤ address ∧ address < lease.ptr + lease.size := by simpa using find?_some found
    exact .write (mem_of_find?_eq_some found) inside.1 inside.2

def Arena.replay (pmm : π) (requests : List Request) : Option (Arena π) := do
  let (started, heap) ← heapInit (traced allocPages) fuel ⟨fun _ => 0, 0, 0, 0, false, pmm, []⟩
  if started then requests.foldlM (Arena.next allocPages fuel) ⟨heap, []⟩ else none

theorem Arena.replay_run {pmm : π} {requests : List Request} {arena : Arena π}
    (replayed : Arena.replay allocPages fuel pmm requests = some arena) :
    ∃ heap, heapInit (traced allocPages) fuel ⟨fun _ => 0, 0, 0, 0, false, pmm, []⟩ = some (true, heap) ∧
      Run (Arena.Step allocPages) ⟨heap, []⟩ requests arena := by
  simp only [Arena.replay, Option.bind_eq_bind, Option.bind_eq_some_iff] at replayed
  obtain ⟨⟨started, heap⟩, initial, replayed⟩ := replayed
  cases started with
  | false => cases replayed
  | true => exact ⟨heap, initial, (Run.of_foldlM replayed).mono fun _ _ _ moves => next_step allocPages fuel moves⟩

end

def scripted : PageSource (List Nat)
  | _, [] => (0, [])
  | pages, phys :: rest => if pages = heapExpandPages then (phys, rest) else (0, phys :: rest)

def ScriptOwns (script : List Nat) (regions : List Span) : Prop :=
  (script.map (fun phys => (⟨phys, heapExpandPages * pageSize⟩ : Span)) ++ regions).Pairwise Span.Apart ∧
    ∀ phys ∈ script, phys ≠ 0 ∧ phys + heapExpandPages * pageSize ≤ 2 ^ 32

theorem scripted_contract : PageContract scripted ScriptOwns := by
  constructor
  · rintro (_ | ⟨phys, rest⟩) regions pages owns refused
    · exact owns
    · simp only [scripted] at refused ⊢
      split at refused
      next => exact absurd refused (owns.2 phys mem_cons_self).1
      next other =>
        rw [if_neg other]
        exact owns
  · rintro (_ | ⟨phys, rest⟩) regions pages ⟨apart, below⟩ granted
    · exact absurd rfl granted
    · simp only [scripted] at granted ⊢
      split at granted
      next sixteen =>
        subst sixteen
        rw [if_pos rfl]
        obtain ⟨away, others⟩ := pairwise_cons.mp apart
        refine ⟨(below phys mem_cons_self).2, fun old member => (away old (mem_append_right _ member)).symm,
          ?_, fun other listed => below other (mem_cons_of_mem _ listed)⟩
        exact (perm_middle.pairwise_iff Span.Apart.symm).mpr apart
      next => exact absurd rfl granted

def smallPmm : Pmm.State := ⟨fun byte => if 0x20 ≤ byte ∧ byte < 0x24 then 0#8 else 0xFF#8, 0x20, 0x100, 0x120, true⟩

theorem smallPmm_owns : PmmOwns (fun page => 0x100 ≤ page ∧ page < 0x120) smallPmm [] := by
  refine ⟨[], ⟨rfl, fun page inside => inside.2, fun page free => ?_, by simp, by simp, by simp, List.Pairwise.nil⟩, rfl⟩
  by_contra outside
  have full : smallPmm.bitmap (page / 8) = 0xFF#8 := if_neg (by omega)
  have clear := (bitmapTest_eq free.lt).symm.trans free
  rw [full, full_getLsbD] at clear
  cases clear

theorem overaligned_returned_one : ∃ (heap : State (List Nat × List Span)) (arena : Arena (List Nat)),
    heapInit (traced scripted) 8 ⟨fun _ => 0, 0, 0, 0, false, [0x100000], []⟩ = some (true, heap) ∧
      Run (Arena.Step scripted) ⟨heap, []⟩ [.allocate 33 32] arena ∧
      ∃ free, arena.Consistent free ∧ ∃ lease ∈ arena.leases, lease.ptr % 32 = 0 ∧ lease.Returns arena free := by
  have facts : (Arena.replay scripted 8 [0x100000] [.allocate 33 32]).map
      (fun arena => (arena.leases, isAllocated arena.heap.mem (0x100020 - 24))) =
      some ([⟨0x100020, 33, 0x100000, 73⟩], false) := by decide +kernel
  obtain ⟨arena, replayed, facts⟩ := Option.map_eq_some_iff.mp facts
  obtain ⟨leases, clear⟩ := Prod.mk.inj facts
  obtain ⟨heap, started, run⟩ := Arena.replay_run _ _ replayed
  have owns : ScriptOwns [0x100000] [] := ⟨by simp, by decide⟩
  obtain ⟨free, consistent, -, returns⟩ := overaligned_returned_iff scripted_contract rfl owns started run
  refine ⟨heap, arena, started, run, free, consistent, ⟨0x100020, 33, 0x100000, 73⟩, by simp [leases], by decide, ?_⟩
  exact (returns _ (by simp [leases]) (by decide)).mpr clear

/-- Three neighbouring blocks, of which the third is freed with a link to the free block at
0xA110C000 and then becomes part of the second; the last request gets both. -/
def imitation : List Request :=
  [.allocate 16319 32, .allocate 33 32, .allocate 64 16, .allocate 48944 16, .allocate 16 16,
    .free 0xA110C018, .free 0x5EEF4078, .free 0x5EEF4020, .allocate 16 128]

/-- The old link is the magic of an allocated block, the address of the block its canary: `kfree`
inserts the 24 bytes in front of the pointer. -/
theorem overaligned_wrong_block : ∃ (heap : State (List Nat × List Span)) (arena : Arena (List Nat)),
    ScriptOwns [0x5EEF0000, 0xA110C000] [] ∧
      heapInit (traced scripted) 8 ⟨fun _ => 0, 0, 0, 0, false, [0x5EEF0000, 0xA110C000], []⟩ = some (true, heap) ∧
      Run (Arena.Step scripted) ⟨heap, []⟩ imitation arena ∧
      ⟨0x5EEF4080, 16, 0x5EEF3FFF, 161⟩ ∈ arena.leases ∧
      ∀ fuel, kfree fuel 0x5EEF4080 arena.heap =
        insertFree fuel 0x5EEF4068 { arena.heap with used := arena.heap.used - 24 } := by
  have facts : (Arena.replay scripted 8 [0x5EEF0000, 0xA110C000] imitation).map (fun arena =>
      (arena.leases.head?, blockOf arena.heap.mem 0x5EEF4080, sizeAt arena.heap.mem 0x5EEF4068, arena.heap.ready)) =
      some (some ⟨0x5EEF4080, 16, 0x5EEF3FFF, 161⟩, some 0x5EEF4068, 0, true) := by decide +kernel
  obtain ⟨arena, replayed, facts⟩ := Option.map_eq_some_iff.mp facts
  simp only [Prod.mk.injEq] at facts
  obtain ⟨lease, block, size, ready⟩ := facts
  obtain ⟨heap, started, run⟩ := Arena.replay_run _ _ replayed
  refine ⟨heap, arena, ⟨by decide, by decide⟩, started, run, mem_of_head? lease, fun fuel => ?_⟩
  simp only [kfree, ready, Bool.true_eq_false, or_false, block, size]
  rfl

theorem Layout.region_unjoined {π : Type} {heap : State (π × List Span)} {hand free : List Block} {owned : List Owned}
    (layout : Layout heap hand free owned) {phys pages : Nat} (nonempty : 1 ≤ pages)
    (fresh : ∀ old ∈ heap.pmm.2, old.Apart ⟨phys, pages * pageSize⟩)
    (onward : ∀ old ∈ heap.pmm.2, phys + pages * pageSize ≠ old.start) :
    ∀ next ∈ free, ¬(regionBlock phys pages).Joins next := by
  intro next listed joins
  have positive : 0 < pages * pageSize := Nat.mul_pos nonempty (by decide)
  refine layout.tiles.unjoined positive fresh onward (mem_spansOf_free listed) ?_
  have size := congrArg Span.size (regionBlock_span phys nonempty)
  simp only [Block.span_size, Block.span_start, Block.Joins, regionBlock] at size joins ⊢
  omega

variable {pool : Nat → Prop} {pmm : Pmm.State} {regions : List Span} {pages : Nat} (lowest : ¬pool 0)
include lowest

theorem PmmOwns.refusal (held : PmmOwns pool pmm regions) (refused : (pmmAllocPages pages pmm).1 = 0) :
    (pmmAllocPages pages pmm).2 = pmm := by
  obtain ⟨outstanding, sound, rfl⟩ := held
  exact refusal_keeps sound lowest (pmmAllocPages_spec pages pmm) refused

omit lowest in
theorem pmmAllocPages_whole (pages : Nat) (pmm : Pmm.State) : pageSize ∣ (pmmAllocPages pages pmm).1 := by
  rcases pmmAllocPages_spec pages pmm with ⟨start, address, _⟩ | refused
  · exact address ▸ Nat.dvd_mul_left _ _
  · exact refused ▸ Nat.dvd_zero _

omit lowest in
theorem pmmAllocPages_takes (granted : (pmmAllocPages pages pmm).1 ≠ 0) :
    Takes pmm (pmmAllocPages pages pmm).2 ((pmmAllocPages pages pmm).1 / pageSize) pages := by
  rcases pmmAllocPages_spec pages pmm with ⟨start, address, takes⟩ | refused
  · rw [address, Nat.mul_div_cancel start (by decide)]
    exact takes
  · exact absurd (congrArg Prod.fst refused) granted

structure PmmStacks (pool : Nat → Prop) (pmm : Pmm.State) (regions : List Span) : Prop where
  owns : PmmOwns pool pmm regions
  behind : ∀ region ∈ regions, ¬Free pmm (region.start / pageSize - 1)

theorem pmmStacks_contract : PageContract pmmAllocPages (PmmStacks pool) := by
  have contract := pmm_contract lowest
  refine ⟨fun held refused => ?_, fun held granted => ?_⟩
  · rw [held.owns.refusal lowest refused]
    exact held
  · obtain ⟨fits, fresh, owns⟩ := contract.grant held.owns granted
    refine ⟨fits, fresh, owns, ?_⟩
    have takes := pmmAllocPages_takes granted
    intro region listed stays
    have free := ((takes.taken _).mp stays).1
    rcases List.mem_cons.mp listed with rfl | old
    · exact pmmAllocPages_lowest granted free
    · exact held.behind region old free

omit lowest in
theorem PmmStacks.onward (held : PmmStacks pool pmm regions) (granted : (pmmAllocPages pages pmm).1 ≠ 0) :
    ∀ old ∈ regions, (pmmAllocPages pages pmm).1 + pages * pageSize ≠ old.start := by
  intro old listed same
  have takes := pmmAllocPages_takes granted
  have nonempty := takes.nonempty
  have positive : 0 < pageSize := by decide
  have page : old.start / pageSize = (pmmAllocPages pages pmm).1 / pageSize + pages := by
    rw [← same, Nat.add_mul_div_right _ _ positive]
  refine held.behind old listed (takes.free _ ?_ ?_)
  · rw [page]
    exact Nat.le_sub_of_add_le (Nat.add_le_add_left nonempty _)
  · rw [page]
    exact Nat.sub_lt (Nat.add_pos_right _ nonempty) Nat.one_pos

end GWKernel.Heap
