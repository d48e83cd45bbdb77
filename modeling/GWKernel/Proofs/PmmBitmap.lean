import GWKernel.Pmm

/-! What each operation of the memory manager does to the set of free pages. -/

namespace GWKernel.Pmm
open Lib

def Free (state : State) (page : Nat) : Prop := bitmapTest state page = false

variable {state : State} {page : Nat}

theorem Free.lt (free : Free state page) : page < pmmMaxPages := by
  unfold Free bitmapTest at free
  split at free
  · cases free
  · omega

theorem free_congr {first second : State} (same : first.bitmap = second.bitmap) :
    Free first page ↔ Free second page := by
  unfold Free bitmapTest
  rw [same]

theorem not_free : ¬Free state page ↔ bitmapTest state page = true := by
  simp [Free]

theorem mask_getLsbD {bit other : Nat} (inside : bit < 8) (within : other < 8) :
    (1#8 <<< bit).getLsbD other = decide (other = bit) := by
  have all : ∀ bit other : Fin 8, (1#8 <<< bit.val).getLsbD other.val = decide (other.val = bit.val) := by decide
  exact all ⟨bit, inside⟩ ⟨other, within⟩

theorem bitmapTest_eq (inside : page < pmmMaxPages) :
    bitmapTest state page = (state.bitmap (page / 8)).getLsbD (page % 8) := by
  rw [bitmapTest, if_neg (by omega), bne, BitVec.and_one_eq_setWidth_ofBool_getLsbD]
  simp only [BitVec.getLsbD_ushiftRight, Nat.add_zero]
  cases (state.bitmap (page / 8)).getLsbD (page % 8) <;> rfl

theorem bitmapTest_outside (outside : pmmMaxPages ≤ page) : bitmapTest state page = true := if_pos outside

/-- Two pages share a byte and its bit only when they are one page. -/
theorem bitmapTest_bitmapSet (inside : page < pmmMaxPages) (other : Nat) :
    bitmapTest (bitmapSet state page) other = (bitmapTest state other || decide (other = page)) := by
  by_cases within : other < pmmMaxPages
  · rw [bitmapTest_eq within, bitmapTest_eq within, bitmapSet, if_neg (by omega)]
    by_cases shared : other / 8 = page / 8
    · have same : other % 8 = page % 8 ↔ other = page := by omega
      simp only [shared, Function.update_self, BitVec.getLsbD_or,
        mask_getLsbD (Nat.mod_lt page (by decide)) (Nat.mod_lt other (by decide)), same]
    · have apart : other ≠ page := fun is => shared (is ▸ rfl)
      simp [shared, apart]
  · rw [bitmapTest_outside (by omega), bitmapTest_outside (by omega), Bool.true_or]

theorem bitmapTest_bitmapClear (inside : page < pmmMaxPages) (other : Nat) :
    bitmapTest (bitmapClear state page) other = (bitmapTest state other && !decide (other = page)) := by
  by_cases within : other < pmmMaxPages
  · rw [bitmapTest_eq within, bitmapTest_eq within, bitmapClear, if_neg (by omega)]
    by_cases shared : other / 8 = page / 8
    · have same : other % 8 = page % 8 ↔ other = page := by omega
      simp only [shared, Function.update_self, BitVec.getLsbD_and, BitVec.getLsbD_not, Nat.mod_lt other (show 8 > 0 by decide),
        mask_getLsbD (Nat.mod_lt page (by decide)) (Nat.mod_lt other (by decide)), same, decide_true, Bool.true_and]
    · have apart : other ≠ page := fun is => shared (is ▸ rfl)
      simp [shared, apart]
  · have apart : other ≠ page := by omega
    rw [bitmapTest_outside (by omega), bitmapTest_outside (by omega), decide_eq_false apart]
    rfl

theorem full_getLsbD (page : Nat) : (0xFF#8).getLsbD (page % 8) = true := by
  have all : ∀ bit : Fin 8, (0xFF#8).getLsbD bit.val = true := by decide
  exact all ⟨page % 8, Nat.mod_lt page (by decide)⟩

theorem not_free_full {total used highestPage : Nat} {ready : Bool} :
    ¬Free { bitmap := fun _ => 0xFF#8, total, used, highestPage, ready } page := by
  intro free
  have clear := (bitmapTest_eq free.lt).symm.trans free
  exact absurd (full_getLsbD page) (by simp [clear])

theorem free_bitmapSet (state : State) (page other : Nat) :
    Free (bitmapSet state page) other ↔ Free state other ∧ other ≠ page := by
  by_cases inside : page < pmmMaxPages
  · simp [Free, bitmapTest_bitmapSet inside]
  · rw [bitmapSet, if_pos (by omega)]
    exact ⟨fun free => ⟨free, fun is => inside (is ▸ free.lt)⟩, fun free => free.1⟩

theorem free_bitmapClear (state : State) (page other : Nat) :
    Free (bitmapClear state page) other ↔ Free state other ∨ other = page ∧ page < pmmMaxPages := by
  by_cases inside : page < pmmMaxPages
  · simp [Free, bitmapTest_bitmapClear inside, inside, ← Bool.not_eq_true, imp_iff_not_or]
  · simp [bitmapClear, inside, Nat.not_lt.mp inside]

theorem free_markPageUsed (state : State) (page other : Nat) :
    Free (markPageUsed page state) other ↔ Free state other ∧ other ≠ page := by
  unfold markPageUsed
  split
  next used =>
    constructor
    · intro free
      refine ⟨free, ?_⟩
      rintro rfl
      exact not_free.mpr used free
    · exact fun free => free.1
  next => exact free_bitmapSet state page other

/-- The pages that `mark_range_used` sets, with its 64-bit rounding. -/
def Marked (phys size page : Nat) : Prop :=
  size ≠ 0 ∧ phys / pageSize ≤ page ∧ page < u64 (phys + size + pageSize - 1) / pageSize

instance (phys size page : Nat) : Decidable (Marked phys size page) := by
  unfold Marked
  infer_instance

theorem free_markRangeUsed (state : State) (phys size page : Nat) :
    Free (markRangeUsed state phys size) page ↔ Free state page ∧ ¬Marked phys size page := by
  unfold markRangeUsed Marked
  by_cases empty : size = 0
  · simp [empty]
  · simp only [empty, if_false, ne_eq, not_false_eq_true, true_and]
    generalize u64 (phys + size + pageSize - 1) / pageSize = past
    generalize phys / pageSize = start
    by_cases inside : start ≤ min past pmmMaxPages
    · have loop := forRange_rule markPageUsed state
        (fun index current => Free current page ↔ Free state page ∧ ¬(start ≤ page ∧ page < index)) inside
        (by simp)
        (by
          intro index current above below same
          rw [free_markPageUsed, same]
          constructor
          · rintro ⟨⟨free, outside⟩, different⟩
            exact ⟨free, by omega⟩
          · rintro ⟨free, outside⟩
            exact ⟨⟨free, by omega⟩, by omega⟩)
      rw [loop]
      constructor
      · rintro ⟨free, outside⟩
        have bound := free.lt
        exact ⟨free, by omega⟩
      · rintro ⟨free, outside⟩
        exact ⟨free, by omega⟩
    · rw [forRange_empty _ _ (by omega)]
      constructor
      · intro free
        have bound := free.lt
        exact ⟨free, by omega⟩
      · exact fun free => free.1

/-- The pages a usable descriptor of the map gives to the manager. -/
def Covers (entry : EfiMemoryDescriptor) (page : Nat) : Prop :=
  usable entry.type = true ∧ entry.physicalStart / pageSize ≤ page ∧
    page < u64 (entry.physicalStart / pageSize + entry.numberOfPages)

private theorem free_clearPage (state : State) (page other : Nat) (inside : page < pmmMaxPages) :
    Free (clearPage page state) other ↔ Free state other ∨ other = page := by
  unfold clearPage
  split
  · rw [free_bitmapClear]
    simp [inside]
  next used =>
    constructor
    · exact Or.inl
    · rintro (free | rfl)
      · exact free
      · simpa [Free] using used

private theorem free_clearLoop (state : State) (start past page : Nat) (bound : past ≤ pmmMaxPages) :
    Free (forRange start past clearPage state) page ↔ Free state page ∨ start ≤ page ∧ page < past := by
  by_cases inside : start ≤ past
  · apply forRange_rule _ _ (fun index current => Free current page ↔ Free state page ∨ start ≤ page ∧ page < index) inside
    · simp
    · intro index current above below same
      rw [free_clearPage current index page (by omega), same, or_assoc]
      apply or_congr_right
      omega
  · rw [forRange_empty _ _ (by omega)]
    simp
    omega

private theorem scanDescriptor_bitmap (state : State) (entry : EfiMemoryDescriptor) :
    (scanDescriptor state entry).bitmap =
      if usable entry.type ∧ entry.physicalStart / pageSize < pmmMaxPages then
        (forRange (entry.physicalStart / pageSize)
          (min (u64 (entry.physicalStart / pageSize + entry.numberOfPages)) pmmMaxPages) clearPage
          { state with
            highestPage := max state.highestPage (u64 (entry.physicalStart / pageSize + entry.numberOfPages)) }).bitmap
      else state.bitmap := by
  simp only [scanDescriptor]
  split <;> rfl

theorem free_scanDescriptor (state : State) (entry : EfiMemoryDescriptor) (page : Nat) :
    Free (scanDescriptor state entry) page ↔ Free state page ∨ page < pmmMaxPages ∧ Covers entry page := by
  have bits := scanDescriptor_bitmap state entry
  unfold Covers
  split at bits
  next scanned =>
    rw [free_congr bits, free_clearLoop _ _ _ page (Nat.min_le_right _ _)]
    refine or_congr (free_congr rfl) ?_
    simp only [scanned.1, true_and, Nat.lt_min]
    omega
  next skipped =>
    rw [free_congr bits]
    constructor
    · exact Or.inl
    · rintro (free | ⟨bound, kind, between⟩)
      · exact free
      · exact absurd ⟨kind, by omega⟩ skipped

theorem free_scan (entries : List EfiMemoryDescriptor) (state : State) (page : Nat) :
    Free (entries.foldl scanDescriptor state) page ↔
      Free state page ∨ page < pmmMaxPages ∧ ∃ entry ∈ entries, Covers entry page := by
  induction entries generalizing state with
  | nil => simp
  | cons entry entries ih =>
    rw [List.foldl_cons, ih, free_scanDescriptor]
    simp only [List.mem_cons, exists_eq_or_imp]
    constructor
    · rintro ((free | here) | ⟨bound, later⟩)
      · exact .inl free
      · exact .inr ⟨here.1, .inl here.2⟩
      · exact .inr ⟨bound, .inr later⟩
    · rintro (free | ⟨bound, here | later⟩)
      · exact .inl (.inl free)
      · exact .inl (.inr ⟨bound, here⟩)
      · exact .inr ⟨bound, later⟩

/-- The regions `pmm_init` protects after reading the map. -/
def Protected (bi : Nat) (info : BootInfo) (page : Nat) : Prop :=
  Marked 0 0x100000 page ∨ info.kernelPhysicalBase ≠ 0 ∧ Marked info.kernelPhysicalBase (1024 * 1024) page ∨
    Marked 0x80000 0x10000 page ∨ Marked bi pageSize page ∨
    info.memoryMapSize ≠ 0 ∧ Marked info.memoryMap info.memoryMapSize page

theorem free_countUsed (state : State) (count page : Nat) :
    Free (forRange 0 count countUsed state) page ↔ Free state page := by
  apply forRange_rule _ _ (fun _ current => Free current page ↔ Free state page) (by omega) Iff.rfl
  intro index current _ _ same
  unfold countUsed
  split
  · exact same
  · exact same

/-- Inside a usable descriptor, below 4 GiB and outside every protected region. -/
def Allocatable (mem : Mem) (bi : Nat) (info : BootInfo) (page : Nat) : Prop :=
  page < pmmMaxPages ∧ (∃ entry ∈ descriptors mem info, Covers entry page) ∧ ¬Protected bi info page

theorem pmmInit_some (mem : Mem) (bi : Nat) (info : BootInfo) (present : bi ≠ 0)
    (magic : info.magic = gwBootMagic) (mapped : info.memoryMap ≠ 0) : ∃ state, pmmInit mem bi info = some state := by
  unfold pmmInit
  simp only [present, magic, mapped, ne_eq, not_true_eq_false, or_self, if_false, Option.some.injEq, exists_eq']

theorem free_pmmInit {mem : Mem} {bi : Nat} {info : BootInfo} (accepted : pmmInit mem bi info = some state)
    (page : Nat) : Free state page ↔ Allocatable mem bi info page := by
  unfold pmmInit at accepted
  split at accepted
  · cases accepted
  · simp only [Option.some.injEq] at accepted
    subst accepted
    -- Peel the protected regions off, last one first.
    have mapped : ∀ current, Free (if info.memoryMapSize = 0 then current
        else markRangeUsed current info.memoryMap info.memoryMapSize) page ↔
        Free current page ∧ ¬(info.memoryMapSize ≠ 0 ∧ Marked info.memoryMap info.memoryMapSize page) := by
      intro current
      split
      next empty => simp [empty]
      next filled => simp [free_markRangeUsed, filled]
    have kernel : ∀ current, Free (if info.kernelPhysicalBase = 0 then current
        else markRangeUsed current info.kernelPhysicalBase (1024 * 1024)) page ↔
        Free current page ∧
          ¬(info.kernelPhysicalBase ≠ 0 ∧ Marked info.kernelPhysicalBase (1024 * 1024) page) := by
      intro current
      split
      next absent => simp [absent]
      next present => simp [free_markRangeUsed, present]
    have scanned := free_scan (descriptors mem info)
      { bitmap := fun _ => 0xFF#8, total := 0, used := 0, highestPage := 0, ready := false } page
    simp only [not_free_full, false_or] at scanned
    refine (mapped _).trans ?_
    rw [free_markRangeUsed, free_markRangeUsed, kernel, free_markRangeUsed, free_countUsed]
    refine (and_congr (and_congr (and_congr (and_congr (and_congr scanned Iff.rfl) Iff.rfl) Iff.rfl) Iff.rfl)
      Iff.rfl).trans ?_
    unfold Allocatable Protected
    simp only [not_or, and_assoc]

end GWKernel.Pmm
