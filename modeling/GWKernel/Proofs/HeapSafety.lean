import GWKernel.Proofs.HeapAllocation
import GWKernel.Proofs.PmmSafety

/-! Runs of the heap and its clients: the layout is kept by every call and every write of an owner
into its own bytes. -/

namespace GWKernel.Heap
open Lib Pmm List

variable {π : Type}

def effectiveAlign (align : Nat) : Nat := if !isPowerOfTwo align || align < heapAlign then heapAlign else align

def needFor (size align : Nat) : Nat :=
  max (if heapAlign < effectiveAlign align then u64 (size + effectiveAlign align + 8) else alignUp size heapAlign) 16

def pointerFor (align block : Nat) : Nat :=
  if heapAlign < align then alignUp (block + headerSize + 8) align else block + headerSize

def Covered (size align : Nat) : Prop :=
  if heapAlign < effectiveAlign align then size + effectiveAlign align + 8 < 2 ^ 64 else size + heapAlign ≤ 2 ^ 64

variable {allocPages : PageSource π}

theorem kmallocAligned_eq {heap : State π} {size : Nat} (align fuel : Nat) (active : heap.ready = true)
    (nonzero : size ≠ 0) :
    kmallocAligned allocPages fuel size align heap =
      kmallocLoop allocPages fuel size (effectiveAlign align) (needFor size align) fuel heap := by
  simp only [kmallocAligned, active, nonzero, Bool.not_true, decide_false, Bool.or_self, Bool.false_eq_true, if_false]
  rfl

theorem kmallocAligned_idle {heap : State π} {size : Nat} (align fuel : Nat) (idle : heap.ready = false ∨ size = 0) :
    kmallocAligned allocPages fuel size align heap = some (0, heap) := by
  rcases idle with idle | idle <;> simp [kmallocAligned, idle]

theorem alignUp_spec {value align : Nat} (positive : 0 < align) (small : value + align ≤ 2 ^ 64) :
    value ≤ alignUp value align ∧ alignUp value align < value + align ∧ align ∣ alignUp value align := by
  have exactly : u64 (value + align - 1) = value + align - 1 := Nat.mod_eq_of_lt (by omega)
  have whole := Nat.div_add_mod' (value + align - 1) align
  have rest := Nat.mod_lt (value + align - 1) positive
  rw [alignUp, exactly]
  exact ⟨by omega, by omega, Nat.dvd_mul_left _ _⟩

theorem Covered.extent {size align block : Nat} (covered : Covered size align)
    (inside : block + headerSize + needFor size align ≤ 2 ^ 32) :
    let ptr := pointerFor (effectiveAlign align) block
    block + headerSize ≤ ptr ∧ ptr + size ≤ block + headerSize + needFor size align ∧
      (heapAlign < effectiveAlign align → block + headerSize + 8 ≤ ptr ∧ effectiveAlign align ∣ ptr) := by
  have header : headerSize = 24 := rfl
  have sixteen : heapAlign = 16 := rfl
  simp only [Covered, needFor, pointerFor] at *
  split at covered
  next beyond =>
    rw [if_pos beyond] at inside ⊢
    simp only [if_pos beyond]
    generalize effectiveAlign align = step at *
    have need : u64 (size + step + 8) = size + step + 8 := Nat.mod_eq_of_lt covered
    rw [need] at inside ⊢
    obtain ⟨low, high, divides⟩ := alignUp_spec (show 0 < step by omega)
      (show block + headerSize + 8 + step ≤ 2 ^ 64 by omega)
    exact ⟨by omega, by omega, fun _ => ⟨low, divides⟩⟩
  next plain =>
    rw [if_neg plain] at inside ⊢
    simp only [if_neg plain]
    obtain ⟨low, -, -⟩ := alignUp_spec (show 0 < heapAlign by decide) covered
    exact ⟨Nat.le_refl _, by omega, fun beyond => absurd beyond plain⟩

def stamped (align block : Nat) (mem : Mem) : Mem :=
  if heapAlign < align then mem.put (pointerFor align block - 8) 8 block else mem

theorem handOut_eq (size align block : Nat) (heap : State π) :
    handOut size align block heap =
      (pointerFor align block, { heap with
        mem := (stamped align block heap.mem).fill (pointerFor align block) size heapPoisonAlloc
        used := u64 (heap.used + (sizeAt (stamped align block heap.mem) block + headerSize)) }) := by
  simp only [handOut, placePointer, pointerFor, stamped]
  split <;> rfl

section
variable {heap : State (π × List Span)} {free : List Block} {owned : List Owned}

theorem handOut_layout {size align : Nat} {taken : Block} (layout : Layout heap [taken] free owned)
    (header : Header heap.mem heapMagicAlloc taken) (covered : Covered size align)
    (room : needFor size align ≤ taken.size) :
    let ptr := pointerFor (effectiveAlign align) taken.addr
    let after := (handOut size (effectiveAlign align) taken.addr heap).2
    Layout after [] free (⟨taken, ptr - (taken.addr + headerSize) + size⟩ :: owned) ∧
      (heapAlign < effectiveAlign align → after.mem.le (ptr - 8) 8 = taken.addr) ∧
      Mem.ChangesOnly [taken.span] heap.mem after.mem := by
  intro ptr after
  have bounded := layout.bounded (mem_spansOf_hand mem_cons_self)
  simp only [Block.Bounded] at bounded
  obtain ⟨low, high, behind⟩ := @Covered.extent size align taken.addr covered (by omega)
  change taken.addr + headerSize ≤ ptr at low
  change ptr + size ≤ _ at high
  have stamp : Mem.ChangesOnly [taken.span] heap.mem (stamped (effectiveAlign align) taken.addr heap.mem) ∧
      Header (stamped (effectiveAlign align) taken.addr heap.mem) heapMagicAlloc taken := by
    unfold stamped
    split
    next beyond =>
      have gap := (behind beyond).1
      refine ⟨Mem.put_changes _ _ ?_ ?_, header.frame (Mem.put_agree _ _ _ _ ?_)⟩
      · simp only [Block.span_start]
        omega
      · simp only [Block.span_start, Block.span_size]
        change ptr - 8 + 8 ≤ _
        omega
      · exact .inl (by omega)
    next => exact ⟨Mem.ChangesOnly.refl _ _, header⟩
  have poison : Mem.ChangesOnly [taken.span] (stamped (effectiveAlign align) taken.addr heap.mem)
      ((stamped (effectiveAlign align) taken.addr heap.mem).fill ptr size heapPoisonAlloc) :=
    Mem.fill_changes _ _ (by simp only [Block.span_start]; omega)
      (by simp only [Block.span_start, Block.span_size]; omega)
  have kept := stamp.2.frame (Mem.fill_agree _ ptr size heapPoisonAlloc (.inl low))
  have is : after = { heap with
      mem := (stamped (effectiveAlign align) taken.addr heap.mem).fill ptr size heapPoisonAlloc
      used := u64 (heap.used + (sizeAt (stamped (effectiveAlign align) taken.addr heap.mem) taken.addr + headerSize)) } :=
    congrArg Prod.snd (handOut_eq size (effectiveAlign align) taken.addr heap)
  rw [is, stamp.2.size]
  refine ⟨(layout.write_hand (stamp.1.trans poison)).own _ kept (by omega), fun beyond => ?_, stamp.1.trans poison⟩
  have gap := (behind beyond).1
  refine (Mem.le_fill_apart _ ptr size heapPoisonAlloc (.inl (by omega))).trans ?_
  rw [stamped, if_pos beyond]
  exact (Mem.le_put _ _ _ _).trans (Nat.mod_eq_of_lt (by omega))

def Undisturbed (owned : List Owned) (before after : Mem) : Prop :=
  ∀ own ∈ owned, Mem.Agree after before own.block.addr (headerSize + own.block.size)

theorem Undisturbed.trans {first second third : Mem} (left : Undisturbed owned first second)
    (right : Undisturbed owned second third) : Undisturbed owned first third :=
  fun own member => (right own member).trans (left own member)

theorem Layout.undisturbed {hand : List Block} {spans : List Span} {mem : Mem} (layout : Layout heap hand free owned)
    (changes : Mem.ChangesOnly spans heap.mem mem)
    (known : ∀ span ∈ spans, span ∈ (hand ++ free).map Block.span ∨ ∀ old ∈ heap.pmm.2, old.Apart span) :
    Undisturbed owned heap.mem mem := by
  intro own member place low high
  have mine : own.block.span.Holds place := ⟨low, high⟩
  apply changes
  intro span changed holds
  rcases known span changed with listed | fresh
  · have apart := layout.tiles.apart
    rw [spansOf, ← append_assoc, ← map_append] at apart
    exact ((pairwise_append.mp apart).2.2 span listed own.block.span
      (List.mem_map.mpr ⟨own, member, rfl⟩)).not_both holds mine
  · obtain ⟨old, granted, inside⟩ :=
      (layout.tiles.covers place).mp ⟨own.block.span, mem_spansOf_owned member, mine⟩
    exact (fresh old granted).not_both inside holds

end

section
variable {allocPages : PageSource π} {owns : π → List Span → Prop} {heap after : State (π × List Span)}
  {free : List Block} {owned : List Owned} {fuel size align ptr : Nat}
  (contract : PageContract allocPages owns) (layout : Layout heap [] free owned) (held : owns heap.pmm.1 heap.pmm.2)
  (covered : Covered size align)
include contract layout held covered

/-- A request fails, or hands out a pointer into a block of its own; the other allocations
stay as they were. -/
theorem kmallocLoop_leases {rounds : Nat}
    (result : kmallocLoop (traced allocPages) fuel size (effectiveAlign align) (needFor size align) rounds heap =
      some (ptr, after)) :
    Undisturbed owned heap.mem after.mem ∧ heap.pmm.2 ⊆ after.pmm.2 ∧ owns after.pmm.1 after.pmm.2 ∧
      after.ready = heap.ready ∧ ∃ rest, ptr = 0 ∧ Layout after [] rest owned ∨
        ∃ taken : Block, ptr = pointerFor (effectiveAlign align) taken.addr ∧ needFor size align ≤ taken.size ∧
          Layout after [] rest (⟨taken, ptr - (taken.addr + headerSize) + size⟩ :: owned) ∧
          (heapAlign < effectiveAlign align → after.mem.le (ptr - 8) 8 = taken.addr) := by
  induction rounds generalizing heap free with
  | zero => cases result
  | succ rounds ih =>
    rcases kmallocLoop_cases layout result with
      ⟨lower, block, upper, taking, rfl, _, large, took, served⟩ | ⟨_, expanded, larger, grown, result⟩
    · obtain ⟨rest, taken, kept, header, carves, changes, pmm, ready⟩ := takeBlock_layout layout large took
      have room := carves.room large
      rw [← carves.addr] at served
      have is := handOut_eq size (effectiveAlign align) taken.addr taking
      rw [is, Prod.mk.injEq] at served
      obtain ⟨rfl, rfl⟩ := served
      obtain ⟨full, stamp, writes⟩ := handOut_layout kept header covered room
      rw [is] at full stamp writes
      have quiet := (layout.undisturbed changes fun span changed => .inl changed).trans
        (kept.undisturbed writes fun span changed => .inl (by simp [mem_singleton.mp changed]))
      exact ⟨quiet, by simp [pmm], by simpa only [pmm] using held, ready, rest, .inr ⟨taken, rfl, room, full, stamp⟩⟩
    · by_cases refused : (allocPages (expandPages (needFor size align)) heap.pmm.1).1 = 0
      · obtain ⟨is, owned⟩ := expandHeap_refused contract held refused
        cases (is fuel).symm.trans grown
        cases result
        exact ⟨fun _ _ _ _ _ => rfl, fun _ listed => listed, owned, rfl, free, .inl ⟨rfl, layout.repaged _⟩⟩
      · obtain ⟨rfl, more, bigger, _, pmm, owned, ready, changes⟩ :=
          expandHeap_grown contract layout held refused grown
        obtain ⟨_, fresh, _⟩ := contract.grant held refused
        obtain ⟨later, regions, kept, same, outcome⟩ := ih bigger owned result
        refine ⟨(layout.undisturbed changes fun span changed => ?_).trans later,
          fun _ listed => regions (by simp [pmm, listed]), kept, same.trans ready, outcome⟩
        rcases mem_cons.mp changed with rfl | listed
        · rw [regionBlock_span _ (expandPages_pos _)]
          exact .inr fresh
        · exact .inl listed

end

/-- A pointer that has been returned for `size` bytes of a block and not been freed. -/
structure Lease where
  ptr : Nat
  size : Nat
  block : Block
deriving DecidableEq, Repr

def Lease.owned (lease : Lease) : Owned := ⟨lease.block, lease.ptr - (lease.block.addr + headerSize) + lease.size⟩

/-- The pointer is that of the payload, or it is preceded by the address of the block. -/
structure Lease.Valid (mem : Mem) (lease : Lease) : Prop where
  low : lease.block.addr + headerSize ≤ lease.ptr
  stamp : lease.ptr = lease.block.addr + headerSize ∨
    lease.block.addr + headerSize + 8 ≤ lease.ptr ∧ mem.le (lease.ptr - 8) 8 = lease.block.addr

/-- In front of an over-aligned pointer there is nothing that looks like an allocated header. -/
def Lease.Clear (mem : Mem) (lease : Lease) : Prop :=
  lease.ptr = lease.block.addr + headerSize ∨ isAllocated mem (lease.ptr - headerSize) = false

variable {allocPages : PageSource π} {owns : π → List Span → Prop} {fuel size : Nat}
  {heap after : State (π × List Span)} {free : List Block} {owned : List Owned} {ptr : Nat}

private def Grants (owned : List Owned) (size ptr : Nat) (after : State (π × List Span)) : Prop :=
  ∃ free, (ptr = 0 ∧ Layout after [] free owned) ∨
    ∃ own : Owned, own.requested = size ∧ ptr = own.block.addr + headerSize ∧ Layout after [] free (own :: owned)

section
variable (contract : PageContract allocPages owns) (layout : Layout heap [] free owned)
  (held : owns heap.pmm.1 heap.pmm.2)
include contract layout held

theorem kmalloc_layout (small : size + 128 < 2 ^ 64)
    (result : kmalloc (traced allocPages) fuel size heap = some (ptr, after)) :
    Grants owned size ptr after ∧ owns after.pmm.1 after.pmm.2 ∧ after.ready = heap.ready := by
  have usual : ¬heapAlign < effectiveAlign heapAlign := by decide
  by_cases idle : heap.ready = false ∨ size = 0
  · rw [kmalloc, kmallocAligned_idle _ _ idle] at result
    cases result
    exact ⟨⟨free, .inl ⟨rfl, layout⟩⟩, held, rfl⟩
  · simp only [not_or, Bool.not_eq_false] at idle
    rw [kmalloc, kmallocAligned_eq _ _ idle.1 idle.2] at result
    have covered : Covered size heapAlign := by
      rw [Covered, if_neg usual, heapAlign]
      omega
    obtain ⟨-, -, held, ready, rest, ⟨null, layout⟩ | ⟨taken, is, -, layout, -⟩⟩ :=
      kmallocLoop_leases contract layout held covered result
    · exact ⟨⟨rest, .inl ⟨null, layout⟩⟩, held, ready⟩
    · rw [pointerFor, if_neg usual] at is
      rw [is, Nat.sub_self, Nat.zero_add] at layout
      exact ⟨⟨rest, .inr ⟨⟨taken, size⟩, rfl, is, layout⟩⟩, held, ready⟩

theorem kmalloc_returns (enough : 2 ^ 32 ≤ fuel) (small : size + heapAlign ≤ 2 ^ 64) :
    ∃ result, kmalloc (traced allocPages) fuel size heap = some result := by
  by_cases idle : heap.ready = false ∨ size = 0
  · exact ⟨(0, heap), kmallocAligned_idle _ _ idle⟩
  · simp only [not_or, Bool.not_eq_false] at idle
    rw [kmalloc, kmallocAligned_eq _ _ idle.1 idle.2]
    have fits := (alignUp_spec (show 0 < heapAlign by decide) small).1
    exact kmallocLoop_returns layout contract held enough (Nat.le_trans fits (Nat.le_max_left _ _)) (by omega)

end

theorem Layout.kfree_eq (layout : Layout heap [] free owned) (lease : Lease) (active : heap.ready = true)
    (held : lease.owned ∈ owned) (valid : lease.Valid heap.mem) (clear : lease.Clear heap.mem) (fuel : Nat) :
    kfree fuel lease.ptr heap =
      Heap.insertFree fuel lease.block.addr { heap with used := heap.used - (lease.block.size + headerSize) } := by
  have header := layout.headers _ held
  have room := layout.room _ held
  have bounded := layout.bounded (mem_spansOf_owned held)
  have low := valid.low
  have size : headerSize = 24 := rfl
  simp only [Lease.owned, Block.Bounded] at header room bounded
  have before : u64 (lease.ptr + 2 ^ 64 - headerSize) = lease.ptr - headerSize := by
    simp only [u64]
    omega
  have slot : u64 (lease.ptr + 2 ^ 64 - 8) = lease.ptr - 8 := by
    simp only [u64]
    omega
  have allocated : isAllocated heap.mem lease.block.addr = true := by
    simp only [isAllocated, header.magic, header.canary, decide_true, Bool.and_self]
  have block : blockOf heap.mem lease.ptr = some lease.block.addr := by
    simp only [blockOf, before, slot]
    by_cases plain : lease.ptr = lease.block.addr + headerSize
    · simp only [plain, Nat.add_sub_cancel, allocated, if_true]
    · have nonzero : decide (lease.block.addr ≠ 0) = true := decide_eq_true (by omega)
      simp only [clear.resolve_left plain, (valid.stamp.resolve_left plain).2, nonzero, allocated,
        Bool.false_eq_true, if_false, Bool.and_self, if_true]
  have nonzero : lease.ptr ≠ 0 := by omega
  simp only [kfree, nonzero, active, Bool.true_eq_false, or_self, if_false, block, header.size]

section
variable {own : Owned} {others : List Owned} (layout : Layout heap [] free owned) (same : owned.Perm (own :: others))
  (active : heap.ready = true)
include layout same active

private theorem kfree_owned :
    kfree fuel (own.block.addr + headerSize) heap =
      insertFree fuel own.block.addr { heap with used := heap.used - (own.block.size + headerSize) } := by
  have member : own ∈ owned := same.mem_iff.mpr mem_cons_self
  exact layout.kfree_eq ⟨_, own.requested, own.block⟩ active (by simpa [Lease.owned] using member)
    ⟨Nat.le_refl _, .inl rfl⟩ (.inl rfl) fuel

theorem kfree_layout (result : kfree fuel (own.block.addr + headerSize) heap = some after) :
    ∃ free, Layout after [] free others ∧ after.pmm = heap.pmm ∧ after.ready = heap.ready := by
  have size := (layout.headers own (same.mem_iff.mpr mem_cons_self)).size
  rw [kfree_owned layout same active] at result
  obtain ⟨merged, layout, pmm, ready, _, _⟩ := (layout.disown same).insertFree size result
  exact ⟨merged, layout, pmm, ready⟩

theorem kfree_returns (enough : 2 ^ 32 ≤ fuel) :
    ∃ after, kfree fuel (own.block.addr + headerSize) heap = some after := by
  have size := (layout.headers own (same.mem_iff.mpr mem_cons_self)).size
  rw [kfree_owned layout same active]
  exact (layout.disown same).insertFree_returns size enough

end

theorem Layout.write_owned {own : Owned} {address : Nat} (layout : Layout heap [] free owned) (member : own ∈ owned)
    (low : own.block.addr + headerSize ≤ address) (high : address < own.block.addr + headerSize + own.requested)
    (value : Nat) : Layout { heap with mem := heap.mem.put address 1 value } [] free owned := by
  have room := layout.room own member
  have changes : Mem.ChangesOnly [own.block.span] heap.mem (heap.mem.put address 1 value) :=
    Mem.put_changes heap.mem value (by simp only [Block.span_start]; omega)
      (by simp only [Block.span_start, Block.span_size]; omega)
  obtain ⟨_, apart, across⟩ := pairwise_append.mp (pairwise_append.mp layout.tiles.apart).2.1
  refine ⟨layout.list.changes changes ?_, ?_, layout.room, layout.tiles, layout.granted, layout.used, layout.total,
    layout.balance⟩
  · intro block listed span changed
    rw [mem_singleton.mp changed]
    exact (across _ (List.mem_map_of_mem listed) _ (List.mem_map.mpr ⟨own, member, rfl⟩)).symm
  · intro other listed
    by_cases same : other = own
    · subst same
      exact (layout.headers other listed).frame (Mem.put_agree heap.mem address 1 value (by omega))
    · have : Std.Symm fun first second : Owned => first.block.span.Apart second.block.span := ⟨fun _ _ gap => gap.symm⟩
      have gap := (pairwise_map.mp apart).forall member listed (Ne.symm same)
      exact (layout.headers other listed).frame (header_agree changes (by simpa using gap))

structure Live where
  ptr : Nat
  size : Nat
deriving DecidableEq, Repr

def Owned.live (own : Owned) : Live := ⟨own.block.addr + headerSize, own.requested⟩

structure World (π : Type) where
  heap : State (π × List Span)
  live : List Live

inductive Event where
  | kmalloc (size : Nat)
  | kfree (ptr : Nat)
  | write (address value : Nat)

inductive Step (allocPages : PageSource π) : World π → Event → World π → Prop where
  | kmalloc {world : World π} {fuel size ptr : Nat} {after : State (π × List Span)} (small : size + 128 < 2 ^ 64)
      (returned : kmalloc (traced allocPages) fuel size world.heap = some (ptr, after)) :
      Step allocPages world (.kmalloc size) ⟨after, if ptr = 0 then world.live else ⟨ptr, size⟩ :: world.live⟩
  | kfree {world : World π} {fuel : Nat} {entry : Live} {after : State (π × List Span)} (held : entry ∈ world.live)
      (returned : kfree fuel entry.ptr world.heap = some after) :
      Step allocPages world (.kfree entry.ptr) ⟨after, world.live.erase entry⟩
  | write {world : World π} {entry : Live} {address value : Nat} (held : entry ∈ world.live)
      (low : entry.ptr ≤ address) (high : address < entry.ptr + entry.size) :
      Step allocPages world (.write address value)
        ⟨{ world.heap with mem := world.heap.mem.put address 1 value }, world.live⟩

structure World.Sound (owns : π → List Span → Prop) (world : World π) (free : List Block) (owned : List Owned) : Prop where
  ready : world.heap.ready = true
  layout : Layout world.heap [] free owned
  live : world.live.Perm (owned.map Owned.live)
  held : owns world.heap.pmm.1 world.heap.pmm.2

private theorem World.Sound.find {world : World π} {free : List Block} {owned : List Owned}
    (sound : world.Sound owns free owned) {entry : Live} (held : entry ∈ world.live) :
    ∃ own others, owned.Perm (own :: others) ∧ own.live = entry ∧
      (world.live.erase entry).Perm (others.map Owned.live) := by
  obtain ⟨own, member, rfl⟩ := List.mem_map.mp (sound.live.mem_iff.mp held)
  have split := perm_cons_erase member
  refine ⟨own, owned.erase own, split, rfl, ?_⟩
  have lists := (sound.live.trans (split.map Owned.live)).erase own.live
  simpa only [map_cons, erase_cons_head] using lists

section
variable (contract : PageContract allocPages owns)
include contract

theorem World.Sound.step {before after : World π} {event : Event}
    (sound : ∃ free owned, before.Sound owns free owned) (moves : Step allocPages before event after) :
    ∃ free owned, after.Sound owns free owned := by
  obtain ⟨free, owned, sound⟩ := sound
  cases moves with
  | kmalloc small returned =>
    obtain ⟨⟨free, grants⟩, held, ready⟩ := kmalloc_layout contract sound.layout sound.held small returned
    rcases grants with ⟨rfl, layout⟩ | ⟨own, rfl, rfl, layout⟩
    · exact ⟨free, owned, ready.trans sound.ready, layout, sound.live, held⟩
    · have nonzero : own.block.addr + headerSize ≠ 0 := by simp [headerSize]
      refine ⟨free, own :: owned, ready.trans sound.ready, layout, ?_, held⟩
      rw [if_neg nonzero]
      exact sound.live.cons own.live
  | kfree held returned =>
    obtain ⟨own, others, same, rfl, live⟩ := sound.find held
    obtain ⟨free, layout, pmm, ready⟩ := kfree_layout sound.layout same sound.ready returned
    exact ⟨free, others, ready.trans sound.ready, layout, live, by rw [pmm]; exact sound.held⟩
  | write held low high =>
    obtain ⟨own, others, same, rfl, _⟩ := sound.find held
    exact ⟨free, owned, sound.ready, sound.layout.write_owned (same.mem_iff.mpr mem_cons_self) low high _,
      sound.live, sound.held⟩

theorem Run.used_le {before after : World π} {events : List Event}
    (sound : ∃ free owned, before.Sound owns free owned) (run : Run (Step allocPages) before events after)
    (kept : ∀ ptr, .kfree ptr ∉ events) :
    before.heap.used + headerSize * after.live.length ≤ after.heap.used + headerSize * before.live.length := by
  induction run with
  | done => exact Nat.le_refl _
  | @next before middle after event events moves _ ih =>
    simp only [mem_cons, not_or] at kept
    have rest := ih (World.Sound.step contract sound moves) fun ptr => (kept ptr).2
    suffices step : before.heap.used + headerSize * middle.live.length ≤
        middle.heap.used + headerSize * before.live.length by omega
    obtain ⟨free, owned, sound⟩ := sound
    cases moves with
    | kmalloc small returned =>
      obtain ⟨⟨_, grants⟩, _⟩ := kmalloc_layout contract sound.layout sound.held small returned
      rcases grants with ⟨rfl, layout⟩ | ⟨own, rfl, rfl, layout⟩
      · rw [if_pos rfl, layout.used, sound.layout.used]
      · have nonzero : own.block.addr + headerSize ≠ 0 := by simp [headerSize]
        rw [if_neg nonzero, layout.used, sound.layout.used, map_cons, totalSize_cons, Block.span_size,
          length_cons, Nat.mul_succ]
        omega
    | kfree => exact absurd rfl (kept _).1
    | write => exact Nat.le_refl _

omit contract in
theorem blank_layout {boot : State (π × List Span)} (fresh : boot.pmm.2 = []) :
    Layout { boot with freeList := 0, total := 0, used := 0 } [] [] [] := by
  refine ⟨⟨rfl, by simp, List.Pairwise.nil, by simp⟩, by simp, by simp, ?_, ?_, rfl, ?_, ?_⟩
  · simpa [spansOf, fresh] using Tiles.empty
  · rw [fresh]
    exact ⟨by simp, by simp, List.Pairwise.nil⟩
  · simp [fresh]
  · simp [spansOf, fresh]

theorem heapInit_sound {fuel : Nat} {boot : State (π × List Span)}
    {heap : State (π × List Span)} (fresh : boot.pmm.2 = []) (held : owns boot.pmm.1 [])
    (started : heapInit (traced allocPages) fuel boot = some (true, heap)) :
    ∃ free owned, (World.mk heap []).Sound owns free owned := by
  simp only [heapInit, Option.bind_eq_bind, Option.bind_eq_some_iff] at started
  obtain ⟨⟨expanded, after⟩, grown, started⟩ := started
  obtain ⟨free, layout, held, _, _⟩ :=
    expandHeap_layout contract (blank_layout fresh) (by simpa only [fresh] using held) grown
  simp only at started
  split at started
  next =>
    simp only [Option.some.injEq, Prod.mk.injEq, true_and] at started
    subst started
    exact ⟨free, [], rfl, ⟨layout.list, layout.headers, layout.room, layout.tiles, layout.granted, layout.used,
      layout.total, layout.balance⟩, List.Perm.refl _, held⟩
  next => simp at started

theorem heapInit_returns {fuel : Nat} {boot : State (π × List Span)}
    (fresh : boot.pmm.2 = []) (held : owns boot.pmm.1 []) (enough : 2 ^ 32 ≤ fuel)
    (granted : (allocPages (expandPages pageSize) boot.pmm.1).1 ≠ 0) :
    ∃ heap, heapInit (traced allocPages) fuel boot = some (true, heap) := by
  obtain ⟨expanded, after, grown⟩ := expandHeap_returns contract (blank_layout fresh)
    (by simpa only [fresh] using held) pageSize enough
  obtain rfl : expanded = true := by
    refine expandHeap_granted ?_ grown
    exact granted
  simp only [heapInit, Option.bind_eq_bind, grown, Option.bind_some, if_true]
  exact ⟨_, rfl⟩

end

private theorem sumFree_total {mem : Mem} {fuel first sum : Nat} {free : List Block} (chain : Seg mem first free 0)
    (sizes : ∀ block ∈ free, sizeAt mem block.addr = block.size ∧ block.addr ≠ 0) (enough : free.length < fuel)
    (small : sum + totalSize (free.map Block.span) < 2 ^ 64) :
    sumFree mem fuel first sum = some (sum + totalSize (free.map Block.span)) := by
  induction fuel generalizing first sum free with
  | zero => omega
  | succ fuel ih =>
    cases free with
    | nil =>
      obtain rfl : first = 0 := chain
      simp [sumFree]
    | cons block rest =>
      obtain ⟨rfl, chain⟩ := chain
      obtain ⟨size, nonzero⟩ := sizes block mem_cons_self
      simp only [map_cons, totalSize_cons, Block.span_size, length_cons] at small enough ⊢
      have exactly : u64 (sum + (block.size + headerSize)) = sum + (headerSize + block.size) := by
        simp only [u64]
        omega
      simp only [sumFree, nonzero, if_false, size, exactly]
      rw [ih chain (fun other member => sizes other (mem_cons_of_mem _ member)) (by omega) (by omega)]
      congr 1
      omega

/-- The walk over the free list visits `free`, the live pointers belong to `owned`, and both tile
the granted regions. -/
structure Consistent (world : World π) (free : List Block) (owned : List Owned) : Prop where
  walk : Seg world.heap.mem world.heap.freeList free 0
  rising : free.Pairwise fun first second => first.addr < second.addr
  marked : ∀ block ∈ free, magicAt world.heap.mem block.addr = heapMagicFree ∧
    canaryAt world.heap.mem block.addr = not32 heapMagicFree ∧ sizeAt world.heap.mem block.addr = block.size
  live : world.live.Perm (owned.map Owned.live)
  payload : ∀ own ∈ owned, sizeAt world.heap.mem own.block.addr = own.block.size ∧ own.requested ≤ own.block.size
  tiles : Tiles (free.map Block.span ++ owned.map fun own => own.block.span) world.heap.pmm.2
  accounts : ∀ fuel, 2 ^ 32 ≤ fuel → ∃ bytes, heapFreeBytes fuel world.heap = some bytes ∧
    heapUsedBytes world.heap + bytes = heapTotalBytes world.heap

theorem World.Sound.consistent {world : World π} {free : List Block} {owned : List Owned}
    (sound : world.Sound owns free owned) : Consistent world free owned := by
  have layout := sound.layout
  have list := layout.list
  refine ⟨list.chain, ?_, ?_, sound.live, ?_, layout.tiles, ?_⟩
  · refine list.sorted.imp fun before => ?_
    simp only [Block.Before, headerSize] at before
    omega
  · intro block member
    have header := list.headers block member
    exact ⟨header.magic, header.canary, header.size⟩
  · exact fun own member => ⟨(layout.headers own member).size, layout.room own member⟩
  · intro fuel enough
    have short := layout.length_le
    have sum := layout.sum_le
    have balance := layout.balance
    simp only [spansOf, map_nil, nil_append, totalSize_append] at balance
    refine ⟨_, sumFree_total list.chain ?_ (by omega) (by omega), ?_⟩
    · intro block member
      have low := (list.bounded block member).1
      exact ⟨(list.headers block member).size, by omega⟩
    · simp only [heapUsedBytes, heapTotalBytes, layout.used, layout.total]
      omega

/-- After `heap_init` and any calls and owner writes the heap is consistent, and every further
call returns. -/
theorem heap_consistent (contract : PageContract allocPages owns) {fuel : Nat} {boot heap : State (π × List Span)}
    (fresh : boot.pmm.2 = []) (held : owns boot.pmm.1 [])
    (started : heapInit (traced allocPages) fuel boot = some (true, heap))
    {events : List Event} {world : World π} (run : Run (Step allocPages) ⟨heap, []⟩ events world) :
    (∃ free owned, Consistent world free owned) ∧
    ∀ fuel, 2 ^ 32 ≤ fuel →
      (∀ size, size + 128 < 2 ^ 64 → ∃ result, kmalloc (traced allocPages) fuel size world.heap = some result) ∧
      ∀ entry ∈ world.live, ∃ after, kfree fuel entry.ptr world.heap = some after := by
  obtain ⟨free, owned, sound⟩ := run.preserves (fun _ _ _ sound moves => World.Sound.step contract sound moves)
    (heapInit_sound contract fresh held started)
  refine ⟨⟨free, owned, sound.consistent⟩, fun fuel enough => ⟨fun size small => ?_, fun entry member => ?_⟩⟩
  · exact kmalloc_returns contract sound.layout sound.held enough (by unfold heapAlign; omega)
  · obtain ⟨own, others, same, rfl, _⟩ := sound.find member
    exact kfree_returns sound.layout same sound.ready enough

def pagesSpan (held : Allocation) : Span := ⟨held.phys, held.count * pageSize⟩

def PmmOwns (pool : Nat → Prop) (pmm : Pmm.State) (regions : List Span) : Prop :=
  ∃ outstanding, Client.Sound pool ⟨pmm, outstanding⟩ ∧ regions = outstanding.map pagesSpan

private theorem pagesSpan_apart {first second : Allocation} (left : first.phys = first.phys / pageSize * pageSize)
    (right : second.phys = second.phys / pageSize * pageSize) (some' : 0 < first.count) (other : 0 < second.count)
    (apart : first.Apart second) : (pagesSpan first).Apart (pagesSpan second) := by
  have shared := apart (max (first.phys / pageSize) (second.phys / pageSize))
  simp only [Allocation.Holds, not_and, and_imp] at shared
  simp only [Span.Apart, pagesSpan]
  rw [left, right, ← Nat.add_mul, ← Nat.add_mul]
  generalize first.phys / pageSize = low at *
  generalize second.phys / pageSize = high at *
  rcases Nat.lt_or_ge high (low + first.count) with below | above
  · right
    exact Nat.mul_le_mul_right _ (by omega)
  · exact .inl (Nat.mul_le_mul_right _ above)

theorem pmm_contract {pool : Nat → Prop} (lowest : ¬pool 0) : PageContract pmmAllocPages (PmmOwns pool) := by
  have step : ∀ {pmm : Pmm.State} {outstanding : List Allocation} (pages : Nat), Client.Sound pool ⟨pmm, outstanding⟩ →
      Client.Sound pool (Client.grant ⟨pmm, outstanding⟩ pages (pmmAllocPages pages pmm)) :=
    fun pages sound => sound.step lowest (Pmm.Step.allocPages _ pages)
  constructor
  · rintro pmm _ pages ⟨outstanding, sound, rfl⟩ refused
    have after := step pages sound
    simp only [Client.grant, refused, if_true] at after
    exact ⟨outstanding, after, rfl⟩
  · rintro pmm _ pages ⟨outstanding, sound, rfl⟩ granted
    have after := step pages sound
    simp only [Client.grant, granted, if_false] at after
    generalize (pmmAllocPages pages pmm).1 = phys at *
    have aligned := after.aligned _ mem_cons_self
    have nonempty := after.nonempty _ mem_cons_self
    refine ⟨?_, ?_, ⟨phys, pages⟩ :: outstanding, after, rfl⟩
    · have last := (after.used _ mem_cons_self (phys / pageSize + pages - 1) (by
        simp only [Allocation.Holds] at nonempty ⊢
        generalize phys / pageSize = start
        omega)).2.1
      have bytes := Nat.mul_le_mul_right pageSize (show phys / pageSize + pages ≤ pmmMaxPages by omega)
      rw [Nat.add_mul] at bytes
      simp only at aligned
      rw [← aligned] at bytes
      exact bytes
    · intro old member
      obtain ⟨other, listed, rfl⟩ := List.mem_map.mp member
      have apart := (pairwise_cons.mp after.apart).1 other listed
      exact (pagesSpan_apart aligned (sound.aligned other listed) nonempty (sound.nonempty other listed) apart).symm

private theorem smallMachine_grants {boot : Pmm.State} (accepted : pmmInit smallMachine 0x300000 smallBootInfo = some boot) :
    (pmmAllocPages (expandPages pageSize) boot).1 ≠ 0 := by
  have sixteen : expandPages pageSize = 16 := by decide
  have run : HasRun boot 16 := by
    refine ⟨0x400, pmmInit_highestPage accepted (@smallMachine_allocatable 0x40F (by omega) (by omega)), ?_⟩
    intro page low high
    exact (free_pmmInit accepted page).mpr (smallMachine_allocatable low (by omega))
  obtain ⟨start, address, takes⟩ := pmmAllocPages_grants (pmmInit_ready accepted) (by omega) run
  rw [sixteen, address]
  refine Nat.mul_ne_zero ?_ (by decide)
  rintro rfl
  exact page_zero_reserved _ _ _ ((free_pmmInit accepted 0).mp (takes.free 0 (by omega) (by omega)))

theorem heap_consistent_small_machine :
    ∃ (boot : Pmm.State) (fuel : Nat) (heap : State (Pmm.State × List Span)) (world : World Pmm.State),
      pmmInit smallMachine 0x300000 smallBootInfo = some boot ∧
      heapInit (traced pmmAllocPages) fuel ⟨smallMachine, 0, 0, 0, false, boot, []⟩ = some (true, heap) ∧
      Run (Step pmmAllocPages) ⟨heap, []⟩ [.kmalloc 100] world ∧ ∃ free owned, Consistent world free owned := by
  obtain ⟨boot, accepted⟩ := pmmInit_some smallMachine 0x300000 smallBootInfo (by decide) rfl (by decide)
  have contract := pmm_contract (page_zero_reserved smallMachine 0x300000 smallBootInfo)
  have held : PmmOwns (Allocatable smallMachine 0x300000 smallBootInfo) boot [] := ⟨[], sound_initial accepted, rfl⟩
  obtain ⟨heap, started⟩ := @heapInit_returns _ _ _ contract (2 ^ 32) ⟨smallMachine, 0, 0, 0, false, boot, []⟩ rfl held
    (Nat.le_refl _) (smallMachine_grants accepted)
  obtain ⟨⟨ptr, after⟩, returned⟩ :=
    ((heap_consistent contract rfl held started (.done _)).2 (2 ^ 32) (Nat.le_refl _)).1 100 (by decide)
  have run := Run.next (Step.kmalloc (by omega) returned) (.done _)
  exact ⟨boot, 2 ^ 32, heap, _, accepted, started, run, (heap_consistent contract rfl held started run).1⟩

end GWKernel.Heap
