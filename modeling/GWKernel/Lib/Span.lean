import Mathlib

/-! Address ranges, and lists of ranges that tile a list of regions. Splitting, joining and adding
a region are the moves of an allocator. -/

namespace GWKernel.Lib
open List

structure Span where
  start : Nat
  size : Nat
deriving DecidableEq, Repr

namespace Span

def Holds (span : Span) (address : Nat) : Prop := span.start ≤ address ∧ address < span.start + span.size

instance (span : Span) (address : Nat) : Decidable (span.Holds address) := inferInstanceAs (Decidable (_ ∧ _))

/-- One range ends before the other begins. -/
def Apart (first second : Span) : Prop :=
  first.start + first.size ≤ second.start ∨ second.start + second.size ≤ first.start

instance (first second : Span) : Decidable (first.Apart second) := by
  unfold Apart
  infer_instance

theorem Apart.symm {first second : Span} (apart : first.Apart second) : second.Apart first := Or.symm apart

theorem Apart.not_both {first second : Span} (apart : first.Apart second) {address : Nat}
    (left : first.Holds address) (right : second.Holds address) : False := by
  simp only [Holds, Apart] at *
  omega

theorem apart_of_not_both {first second : Span} (left : 0 < first.size) (right : 0 < second.size)
    (disjoint : ∀ address, first.Holds address → ¬second.Holds address) : first.Apart second := by
  have shared := disjoint (max first.start second.start)
  simp only [Holds, Apart] at *
  omega

end Span

/-- The blocks are non-empty, pairwise apart, and cover exactly the regions. -/
structure Tiles (blocks regions : List Span) : Prop where
  nonempty : ∀ block ∈ blocks, 0 < block.size
  apart : blocks.Pairwise Span.Apart
  covers : ∀ address, (∃ block ∈ blocks, block.Holds address) ↔ ∃ region ∈ regions, region.Holds address

namespace Tiles

variable {blocks other rest regions : List Span}

theorem empty : Tiles [] [] := ⟨by simp, List.Pairwise.nil, by simp⟩

theorem perm (tiles : Tiles blocks regions) (same : blocks.Perm other) : Tiles other regions := by
  refine ⟨fun block member => tiles.nonempty block (same.mem_iff.mpr member),
    (same.pairwise_iff Span.Apart.symm).mp tiles.apart, fun address => ?_⟩
  rw [← tiles.covers address]
  simp only [same.mem_iff]

theorem split {start left right : Nat} (tiles : Tiles (⟨start, left + right⟩ :: rest) regions)
    (leftSize : 0 < left) (rightSize : 0 < right) :
    Tiles (⟨start, left⟩ :: ⟨start + left, right⟩ :: rest) regions := by
  obtain ⟨nonempty, apart, covers⟩ := tiles
  obtain ⟨whole, others⟩ := pairwise_cons.mp apart
  refine ⟨?_, ?_, ?_⟩
  · intro block member
    rcases mem_cons.mp member with rfl | member
    · exact leftSize
    · rcases mem_cons.mp member with rfl | member
      · exact rightSize
      · exact nonempty block (mem_cons_of_mem _ member)
  · refine pairwise_cons.mpr ⟨?_, pairwise_cons.mpr ⟨?_, others⟩⟩
    · intro block member
      rcases mem_cons.mp member with rfl | member
      · exact .inl (Nat.le_refl _)
      · have far := whole block member
        simp only [Span.Apart] at far ⊢
        omega
    · intro block member
      have far := whole block member
      simp only [Span.Apart] at far ⊢
      omega
  · intro address
    rw [← covers address]
    simp only [mem_cons, exists_eq_or_imp]
    rw [← or_assoc]
    apply or_congr_left
    simp only [Span.Holds]
    omega

theorem join {start left right : Nat} (tiles : Tiles (⟨start, left⟩ :: ⟨start + left, right⟩ :: rest) regions) :
    Tiles (⟨start, left + right⟩ :: rest) regions := by
  obtain ⟨nonempty, apart, covers⟩ := tiles
  obtain ⟨first, apart⟩ := pairwise_cons.mp apart
  obtain ⟨second, others⟩ := pairwise_cons.mp apart
  refine ⟨?_, ?_, ?_⟩
  · intro block member
    rcases mem_cons.mp member with rfl | member
    · have positive := nonempty ⟨start, left⟩ (by simp)
      simp only at positive ⊢
      omega
    · exact nonempty block (by simp [member])
  · refine pairwise_cons.mpr ⟨?_, others⟩
    intro block member
    have low := first block (by simp [member])
    have high := second block member
    have positive := nonempty block (by simp [member])
    simp only [Span.Apart] at low high ⊢
    omega
  · intro address
    rw [← covers address]
    simp only [mem_cons, exists_eq_or_imp]
    rw [← or_assoc]
    apply or_congr_left
    simp only [Span.Holds]
    omega

theorem add {region : Span} (tiles : Tiles blocks regions) (positive : 0 < region.size)
    (fresh : ∀ old ∈ regions, old.Apart region) : Tiles (region :: blocks) (region :: regions) := by
  refine ⟨?_, pairwise_cons.mpr ⟨?_, tiles.apart⟩, ?_⟩
  · intro block member
    rcases mem_cons.mp member with rfl | member
    · exact positive
    · exact tiles.nonempty block member
  · intro block member
    apply Span.apart_of_not_both positive (tiles.nonempty block member)
    intro address inside held
    obtain ⟨old, listed, inOld⟩ := (tiles.covers address).mp ⟨block, member, held⟩
    exact (fresh old listed).not_both inOld inside
  · intro address
    simp only [mem_cons, exists_eq_or_imp, tiles.covers address]

theorem block_le {limit : Nat} (tiles : Tiles blocks regions)
    (bounded : ∀ region ∈ regions, region.start + region.size ≤ limit) {block : Span} (member : block ∈ blocks) :
    block.start + block.size ≤ limit := by
  have positive := tiles.nonempty block member
  obtain ⟨region, listed, inside⟩ :=
    (tiles.covers (block.start + block.size - 1)).mp ⟨block, member, by simp only [Span.Holds]; omega⟩
  have bound := bounded region listed
  simp only [Span.Holds] at inside
  omega

theorem le_block {limit : Nat} (tiles : Tiles blocks regions)
    (bounded : ∀ region ∈ regions, limit ≤ region.start) {block : Span} (member : block ∈ blocks) :
    limit ≤ block.start := by
  have positive := tiles.nonempty block member
  obtain ⟨region, listed, inside⟩ := (tiles.covers block.start).mp ⟨block, member, by simp only [Span.Holds]; omega⟩
  have bound := bounded region listed
  simp only [Span.Holds] at inside
  omega

theorem unjoined {region : Span} (tiles : Tiles blocks regions) (positive : 0 < region.size)
    (fresh : ∀ old ∈ regions, old.Apart region) (onward : ∀ old ∈ regions, region.start + region.size ≠ old.start)
    {block : Span} (member : block ∈ blocks) : region.start + region.size ≠ block.start := by
  intro same
  obtain ⟨old, listed, low, high⟩ := (tiles.covers block.start).mp
    ⟨block, member, Nat.le_refl _, Nat.lt_add_of_pos_right (tiles.nonempty block member)⟩
  have gap := fresh old listed
  have past := onward old listed
  simp only [Span.Apart] at gap
  omega

end Tiles

/-- A range of addresses that all belong to the regions, and that cannot be made longer. -/
structure MaximalRange (regions : List Span) (span : Span) : Prop where
  nonempty : 0 < span.size
  inside : ∀ address, span.Holds address → ∃ region ∈ regions, region.Holds address
  before : ∀ address, address + 1 = span.start → ∀ region ∈ regions, ¬region.Holds address
  behind : ∀ region ∈ regions, ¬region.Holds (span.start + span.size)

theorem Tiles.maximal {blocks regions : List Span} (tiles : Tiles blocks regions)
    (gaps : ∀ one ∈ blocks, ∀ other ∈ blocks, one.start + one.size ≠ other.start) {span : Span}
    (maximal : MaximalRange regions span) : span ∈ blocks := by
  have nowhere : ∀ {block address}, block ∈ blocks → block.Holds address →
      ¬∀ region ∈ regions, ¬region.Holds address := by
    intro block address listed holds outside
    obtain ⟨region, granted, holds⟩ := (tiles.covers address).mp ⟨block, listed, holds⟩
    exact outside region granted holds
  have positive := maximal.nonempty
  obtain ⟨block, listed, low, high⟩ :=
    (tiles.covers span.start).mpr (maximal.inside span.start ⟨Nat.le_refl _, by omega⟩)
  have start : block.start = span.start := by
    by_contra different
    exact nowhere listed ⟨by omega, by omega⟩ (maximal.before (span.start - 1) (by omega))
  have notLonger : block.start + block.size ≤ span.start + span.size := by
    by_contra longer
    exact nowhere listed ⟨by omega, by omega⟩ maximal.behind
  have notShorter : span.start + span.size ≤ block.start + block.size := by
    by_contra shorter
    obtain ⟨other, member, above, below⟩ := (tiles.covers (block.start + block.size)).mpr
      (maximal.inside _ ⟨by omega, by omega⟩)
    have different : block ≠ other := by
      rintro rfl
      omega
    have : Std.Symm Span.Apart := ⟨fun _ _ gap => gap.symm⟩
    have apart := tiles.apart.forall listed member different
    have gap := gaps block listed other member
    simp only [Span.Apart] at apart
    omega
  obtain ⟨start', size⟩ := block
  obtain ⟨first, length⟩ := span
  simp only at start notLonger notShorter
  obtain rfl : start' = first := start
  obtain rfl : size = length := by omega
  exact listed

def totalSize (spans : List Span) : Nat := (spans.map Span.size).sum

@[simp] theorem totalSize_nil : totalSize [] = 0 := rfl
@[simp] theorem totalSize_cons (span : Span) (spans : List Span) :
    totalSize (span :: spans) = span.size + totalSize spans := by simp [totalSize]
@[simp] theorem totalSize_append (first second : List Span) :
    totalSize (first ++ second) = totalSize first + totalSize second := by simp [totalSize]

theorem totalSize_perm {first second : List Span} (same : first.Perm second) : totalSize first = totalSize second :=
  (same.map Span.size).sum_eq

theorem totalSize_le {limit : Nat} {spans : List Span} (apart : spans.Pairwise Span.Apart)
    (bounded : ∀ span ∈ spans, span.start + span.size ≤ limit) : totalSize spans ≤ limit := by
  -- Count the addresses: the union of the ranges is a subset of `[0, limit)`.
  have counted : ∀ spans : List Span, spans.Pairwise Span.Apart →
      (spans.foldr (fun span union => Finset.Ico span.start (span.start + span.size) ∪ union) ∅).card =
        totalSize spans := by
    intro spans apart
    induction spans with
    | nil => rfl
    | cons span spans ih =>
      obtain ⟨here, later⟩ := pairwise_cons.mp apart
      have separate : ∀ others : List Span, (∀ other ∈ others, span.Apart other) →
          Disjoint (Finset.Ico span.start (span.start + span.size))
            (others.foldr (fun other union => Finset.Ico other.start (other.start + other.size) ∪ union) ∅) := by
        intro others away
        induction others with
        | nil => simp
        | cons other others step =>
          rw [foldr_cons, Finset.disjoint_union_right]
          refine ⟨?_, step (fun old member => away old (mem_cons_of_mem _ member))⟩
          have far := away other mem_cons_self
          simp only [Span.Apart] at far
          rw [Finset.disjoint_left]
          intro address first second
          simp only [Finset.mem_Ico] at first second
          omega
      rw [foldr_cons, Finset.card_union_of_disjoint (separate spans here), ih later, Nat.card_Ico, totalSize_cons]
      omega
  rw [← counted spans apart]
  have below : ∀ others : List Span, (∀ other ∈ others, other.start + other.size ≤ limit) →
      others.foldr (fun other union => Finset.Ico other.start (other.start + other.size) ∪ union) ∅ ⊆
        Finset.range limit := by
    intro others small
    induction others with
    | nil => simp
    | cons other others step =>
      rw [foldr_cons]
      apply Finset.union_subset
      · intro address member
        have bound := small other mem_cons_self
        simp only [Finset.mem_Ico, Finset.mem_range] at member ⊢
        omega
      · exact step (fun old member => small old (mem_cons_of_mem _ member))
  simpa using Finset.card_le_card (below spans bounded)

end GWKernel.Lib
