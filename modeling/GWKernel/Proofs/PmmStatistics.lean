import GWKernel.Proofs.PmmSafety

/-! The counters of the memory manager. `pmm_used` is maintained by every operation, and
agrees with the bitmap at all times. -/

namespace GWKernel.Pmm
open Lib

def setPages (state : State) : Finset Nat := (Finset.range state.highestPage).filter fun page => bitmapTest state page = true

def clearPages (state : State) : Finset Nat :=
  (Finset.range state.highestPage).filter fun page => bitmapTest state page = false

structure Counted (state : State) : Prop where
  used : state.used = (setPages state).card
  managed : ∀ page, Free state page → page < state.highestPage
  bounded : state.highestPage ≤ pmmMaxPages

theorem pmmMaxPages_small : pmmMaxPages + 1 < 2 ^ 64 := by decide

variable {state after : State} {page : Nat}

section
variable (counted : Counted state)
include counted

/-- The counter never comes near the end of its 64 bits. -/
theorem Counted.small : state.used ≤ pmmMaxPages := by
  rw [counted.used]
  exact ((Finset.card_filter_le _ _).trans_eq (Finset.card_range _)).trans counted.bounded

theorem Counted.take (free : Free state page)
    (taken : ∀ other, Free after other ↔ Free state other ∧ other ≠ page) (highest : after.highestPage = state.highestPage)
    (used : after.used = u64 (state.used + 1)) : Counted after := by
  have inside := counted.managed page free
  have grown : setPages after = insert page (setPages state) := by
    ext other
    simp only [setPages, Finset.mem_insert, Finset.mem_filter, Finset.mem_range, highest, ← not_free, taken]
    by_cases same : other = page
    · subst same
      simp [inside]
    · simp [same]
  have new : page ∉ setPages state := by
    simp only [setPages, Finset.mem_filter, ← not_free, not_and, not_not]
    exact fun _ => free
  refine ⟨?_, fun other stays => ?_, highest ▸ counted.bounded⟩
  · rw [used, grown, Finset.card_insert_of_notMem new, ← counted.used]
    exact Nat.mod_eq_of_lt (by have := counted.small; have := pmmMaxPages_small; omega)
  · rw [highest]
    exact counted.managed other ((taken other).mp stays).1

theorem Counted.give (inside : page < state.highestPage) (held : ¬Free state page)
    (given : ∀ other, Free after other ↔ Free state other ∨ other = page) (highest : after.highestPage = state.highestPage)
    (used : after.used = state.used - 1) : Counted after := by
  have shrunk : setPages after = (setPages state).erase page := by
    ext other
    simp only [setPages, Finset.mem_erase, Finset.mem_filter, Finset.mem_range, highest, ← not_free, given]
    tauto
  have member : page ∈ setPages state := by
    simp only [setPages, Finset.mem_filter, Finset.mem_range, ← not_free]
    exact ⟨inside, held⟩
  refine ⟨?_, fun other free => ?_, highest ▸ counted.bounded⟩
  · rw [used, shrunk, Finset.card_erase_of_mem member, counted.used]
  · rw [highest]
    rcases (given other).mp free with old | rfl
    · exact counted.managed other old
    · exact inside

theorem Counted.ready (ready : Bool) : Counted { state with ready } :=
  ⟨counted.used, counted.managed, counted.bounded⟩

theorem Counted.markPageUsed (page : Nat) : Counted (markPageUsed page state) := by
  have marked := free_markPageUsed state page
  unfold Pmm.markPageUsed at marked ⊢
  split at marked
  next used =>
    rw [if_pos used]
    exact counted
  next free =>
    rw [if_neg free]
    exact counted.take (by simpa [Free] using free) marked (bitmapSet_keeps state page).1 rfl

theorem Counted.markRangeUsed (phys size : Nat) : Counted (markRangeUsed state phys size) := by
  unfold Pmm.markRangeUsed
  split
  · exact counted
  · by_cases inside : phys / pageSize ≤ min (u64 (phys + size + pageSize - 1) / pageSize) pmmMaxPages
    · exact forRange_rule _ _ (fun _ current => Counted current) inside counted
        fun page current _ _ counted => counted.markPageUsed page
    · rw [forRange_empty _ _ (by omega)]
      exact counted

theorem Counted.markUnless (skip : Prop) [Decidable skip] (phys size : Nat) :
    Counted (if skip then state else Pmm.markRangeUsed state phys size) := by
  split
  · exact counted
  · exact counted.markRangeUsed phys size

omit counted in
theorem recount (state : State) (size : Nat) (bounded : size ≤ pmmMaxPages) :
    forRange 0 size countUsed { state with used := 0 } =
      { state with used := ((Finset.range size).filter fun page => bitmapTest state page = true).card } := by
  refine forRange_rule _ _ (fun done current => current =
    { state with used := ((Finset.range done).filter fun page => bitmapTest state page = true).card })
    (Nat.zero_le size) rfl ?_
  rintro done current _ below rfl
  have small : ((Finset.range done).filter fun page => bitmapTest state page = true).card + 1 < 2 ^ 64 := by
    have counted := (Finset.card_filter_le (Finset.range done) fun page => bitmapTest state page = true).trans_eq
      (Finset.card_range done)
    have := pmmMaxPages_small
    omega
  have same : bitmapTest { state with
      used := ((Finset.range done).filter fun page => bitmapTest state page = true).card } done = bitmapTest state done := rfl
  unfold countUsed
  rw [same, Finset.range_add_one, Finset.filter_insert]
  split
  · rw [Finset.card_insert_of_notMem (by simp)]
    exact congrArg (fun used => { state with used }) (Nat.mod_eq_of_lt small)
  · rfl

omit counted in
theorem counted_initial {mem : Mem} {bi : Nat} {info : BootInfo} (accepted : pmmInit mem bi info = some state) :
    Counted state := by
  unfold pmmInit at accepted
  split at accepted
  · cases accepted
  simp only [Option.some.injEq] at accepted
  subst accepted
  have scanned := free_scan (descriptors mem info)
    { bitmap := fun _ => 0xFF#8, total := 0, used := 0, highestPage := 0, ready := false }
  have covered := scan_highestPage (descriptors mem info)
    { bitmap := fun _ => 0xFF#8, total := 0, used := 0, highestPage := 0, ready := false }
  generalize (descriptors mem info).foldl scanDescriptor
    { bitmap := fun _ => 0xFF#8, total := 0, used := 0, highestPage := 0, ready := false } = read at scanned covered ⊢
  have counted : Counted (forRange 0 (min read.highestPage pmmMaxPages) countUsed
      { read with highestPage := min read.highestPage pmmMaxPages, used := 0 }) := by
    rw [recount { read with highestPage := min read.highestPage pmmMaxPages } _ (Nat.min_le_right _ _)]
    refine ⟨rfl, fun page free => ?_, Nat.min_le_right _ _⟩
    have free : Free read page := free
    rcases (scanned page).mp free with before | ⟨bound, entry, listed, covers⟩
    · exact absurd before not_free_full
    · exact lt_min (covered page (.inr ⟨entry, listed, covers⟩)) bound
  have kernel := (counted.markRangeUsed 0 0x100000).markUnless (info.kernelPhysicalBase = 0)
    info.kernelPhysicalBase (1024 * 1024)
  have boot := (kernel.markRangeUsed 0x80000 0x10000).markRangeUsed bi pageSize
  exact (boot.markUnless (info.memoryMapSize = 0) info.memoryMap info.memoryMapSize).ready true

theorem Counted.allocPages (count : Nat) : Counted (pmmAllocPages count state).2 := by
  rcases pmmAllocPages_cases count state with ⟨start, is, _, run, _⟩ | same
  · rw [is]
    -- Every page of the run is still free when its turn comes.
    have taken := forRange_rule (takePage start) state
      (fun done current => Counted current ∧ ∀ page, start + done ≤ page → page < start + count → Free current page)
      (Nat.zero_le count) ⟨counted, fun page low high => run.2 page (by omega) high⟩ ?_
    · exact taken.1
    · intro done current _ below ⟨counted, rest⟩
      have removed := free_bitmapSet current (start + done)
      refine ⟨counted.take (rest (start + done) (Nat.le_refl _) (by omega)) removed
        (bitmapSet_keeps current (start + done)).1 rfl, fun page low high => ?_⟩
      exact (removed page).mpr ⟨rest page (by omega) high, by omega⟩
  · rw [same]
    exact counted

theorem Counted.freePage (phys : Nat) : Counted (pmmFreePage state phys) := by
  unfold pmmFreePage
  split
  · exact counted
  split
  · exact counted
  split
  next outside used =>
    have cleared := free_bitmapClear state (phys / pageSize)
    have held : ¬Free state (phys / pageSize) := not_free.mpr used
    have bound : phys / pageSize < pmmMaxPages := by
      have bounded := counted.bounded
      omega
    refine counted.give (by omega) held (fun other => ?_) (bitmapClear_keeps state _).1 rfl
    exact (cleared other).trans (by simp [bound])
  next => exact counted

theorem Counted.freePages (phys count : Nat) : Counted (pmmFreePages state phys count) :=
  forRange_rule _ _ (fun _ current => Counted current) (Nat.zero_le count) counted
    fun _ _ _ _ counted => counted.freePage _

end

inductive Operation where
  | allocPage
  | allocPages (count : Nat)
  | freePage (phys : Nat)
  | freePages (phys count : Nat)
  | markUsed (phys size : Nat)

def Operation.apply (state : State) : Operation → State
  | .allocPage => (pmmAllocPage state).2
  | .allocPages count => (pmmAllocPages count state).2
  | .freePage phys => pmmFreePage state phys
  | .freePages phys count => pmmFreePages state phys count
  | .markUsed phys size => pmmMarkUsed state phys size

theorem Counted.apply (counted : Counted state) (operation : Operation) : Counted (operation.apply state) := by
  cases operation with
  | allocPage =>
    rw [Operation.apply, pmmAllocPage_one]
    exact counted.allocPages 1
  | allocPages count => exact counted.allocPages count
  | freePage phys => exact counted.freePage phys
  | freePages phys count => exact counted.freePages phys count
  | markUsed phys size => exact counted.markRangeUsed phys size

theorem Counted.run (counted : Counted state) (operations : List Operation) :
    Counted (operations.foldl Operation.apply state) := by
  induction operations generalizing state with
  | nil => exact counted
  | cons operation rest ih => exact ih (counted.apply operation)

theorem Counted.free (counted : Counted state) : pmmGetFreePages state = (clearPages state).card := by
  have split : (setPages state).card + (clearPages state).card = state.highestPage := by
    have both := Finset.card_filter_add_card_filter_not (fun page => bitmapTest state page = true)
      (s := Finset.range state.highestPage)
    simpa [setPages, clearPages] using both
  unfold pmmGetFreePages
  rw [counted.used]
  omega

/-- The statistics are exact after every sequence of calls. -/
theorem statistics_exact {mem : Mem} {bi : Nat} {info : BootInfo} {boot : State}
    (accepted : pmmInit mem bi info = some boot) (operations : List Operation) :
    let now := operations.foldl Operation.apply boot
    now.used = (setPages now).card ∧
      (∀ page, now.highestPage ≤ page → page < pmmMaxPages → bitmapTest now page = true) ∧
      pmmGetFreePages now = (clearPages now).card ∧ ∀ page, Free now page ↔ page ∈ clearPages now := by
  intro now
  have counted : Counted now := (counted_initial accepted).run operations
  refine ⟨counted.used, fun page above bound => ?_, counted.free, fun page => ?_⟩
  · by_contra clear
    have managed := counted.managed page (eq_false_of_ne_true clear)
    omega
  · unfold clearPages
    rw [Finset.mem_filter, Finset.mem_range]
    exact ⟨fun free => ⟨counted.managed page free, free⟩, fun member => member.2⟩

theorem statistics_exact_small_machine :
    ∃ boot, pmmInit smallMachine 0x300000 smallBootInfo = some boot ∧
      pmmGetFreePages ([.allocPages 2, .freePage 0x400000].foldl Operation.apply boot) =
        (clearPages ([.allocPages 2, .freePage 0x400000].foldl Operation.apply boot)).card := by
  obtain ⟨boot, accepted⟩ := pmmInit_some smallMachine 0x300000 smallBootInfo (by decide) rfl (by decide)
  exact ⟨boot, accepted, (statistics_exact accepted [.allocPages 2, .freePage 0x400000]).2.2.1⟩

end GWKernel.Pmm
