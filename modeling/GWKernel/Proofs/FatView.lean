import GWKernel.Fat
import GWKernel.Lib.Chain

/-! What the driver sees of a disk: the FAT as a table of 28-bit entries and the data area by
cluster. The modules above never mention sector numbers. -/

namespace GWKernel.Fat
open Lib List

/-- No address computation wraps, and the FAT entries of all clusters lie before the
data area. -/
structure Sane (vol : Volume) : Prop where
  sectorSize : vol.bytesPerSec = 512
  hasSectors : 0 < vol.secPerCluster
  fatBelow : vol.fatStart * 512 + 4 * (vol.totalClusters + 2) ≤ vol.dataStart * 512
  dataBelow : vol.dataStart + vol.totalClusters * vol.secPerCluster ≤ 2 ^ 32
  belowMarks : vol.totalClusters + 2 ≤ 0x0FFFFFF8

structure Faultless (vol : Volume) : Prop where
  reads : ∀ lba, vol.readable lba = true
  writes : ∀ lba, vol.writable lba = true

def Inside (vol : Volume) (c : Nat) : Prop := 2 ≤ c ∧ c < vol.totalClusters + 2

instance (vol : Volume) (c : Nat) : Decidable (Inside vol c) := inferInstanceAs (Decidable (_ ∧ _))

def IsEnd (c : Nat) : Prop := 0x0FFFFFF8 ≤ c

instance (c : Nat) : Decidable (IsEnd c) := inferInstanceAs (Decidable (_ ≤ _))

/-- The FAT, and the sectors of the clusters. -/
@[ext] structure View where
  fat : Nat → Nat
  data : Nat → Nat → Mem

def sectorLba (vol : Volume) (c s : Nat) : Nat := vol.dataStart + (c - 2) * vol.secPerCluster + s

def view (vol : Volume) (disk : Nat → Mem) : View where
  fat c := if c < vol.totalClusters + 2 then (disk (vol.fatStart + 4 * c / 512)).le (4 * c % 512) 4 % 2 ^ 28 else 0
  data c s := if Inside vol c ∧ s < vol.secPerCluster then disk (sectorLba vol c s) else fun _ => 0

namespace View

def setFat (v : View) (c val : Nat) : View := { v with fat := fun other => if other = c then val else v.fat other }

def setSector (v : View) (c s : Nat) (mem : Mem) : View :=
  { v with data := fun other t => if other = c ∧ t = s then mem else v.data other t }

def freeAll (v : View) (cs : List Nat) : View := { v with fat := fun c => if c ∈ cs then 0 else v.fat c }

/-- The clusters from `start` to an end-of-chain mark. -/
abbrev Links (vol : Volume) (v : View) (start : Nat) (cs : List Nat) : Prop := Chain v.fat (Inside vol) IsEnd start cs

end View

variable {vol : Volume} {enough : Prop} {medium : Medium}

theorem Sane.exclusive (sane : Sane vol) (c : Nat) (inside : Inside vol c) : ¬IsEnd c := by
  have marks := sane.belowMarks
  have below := inside.2
  unfold IsEnd
  omega

variable {c s : Nat}

section
variable (sane : Sane vol)
include sane

theorem Sane.inChain (inside : Inside vol c) : InChain c := by
  have marks := sane.belowMarks
  exact ⟨inside.1, by have below := inside.2; omega⟩

omit sane in
theorem not_inChain_of_isEnd (ends : IsEnd c) : ¬InChain c := fun inChain => by
  have below := inChain.2
  unfold IsEnd at ends
  omega

theorem View.Links.length_le {v : View} {start : Nat} {cs : List Nat} (links : v.Links vol start cs) :
    cs.length ≤ vol.totalClusters := by
  have distinct := links.nodup sane.exclusive
  have bounded : cs ⊆ List.range' 2 vol.totalClusters := by
    intro c member
    have inside := links.inside_of_mem member
    exact mem_range'_1.mpr ⟨inside.1, by have below := inside.2; omega⟩
  have sizes := (distinct.subperm bounded).length_le
  simpa using sizes

omit sane in
theorem View.Links.fat_ne_zero {v : View} {start : Nat} {cs : List Nat} (links : v.Links vol start cs)
    (member : c ∈ cs) : v.fat c ≠ 0 := by
  rcases links.next_of_mem member with ends | inside
  · unfold IsEnd at ends
    omega
  · have low := inside.1
    omega

theorem Sane.sector_fits (inside : Inside vol c) (small : s < vol.secPerCluster) :
    sectorLba vol c s < 2 ^ 32 := by
  have rows : (c - 2 + 1) * vol.secPerCluster ≤ vol.totalClusters * vol.secPerCluster :=
    Nat.mul_le_mul_right _ (by have low := inside.1; have high := inside.2; omega)
  have fits := sane.dataBelow
  rw [Nat.add_mul, Nat.one_mul] at rows
  unfold sectorLba
  omega

theorem Sane.lba_eq (inside : Inside vol c) (small : s < vol.secPerCluster) :
    u32 (clusterToLba vol c + s) = sectorLba vol c s := by
  have fits := sane.sector_fits inside small
  have offset : (c + 2 ^ 32 - 2) * vol.secPerCluster = (c - 2) * vol.secPerCluster + 2 ^ 32 * vol.secPerCluster := by
    rw [← Nat.add_mul]
    congr 1
    have low := inside.1
    omega
  have start : clusterToLba vol c = vol.dataStart + (c - 2) * vol.secPerCluster := by
    unfold clusterToLba u32
    rw [offset, ← Nat.add_assoc, Nat.add_mul_mod_self_left]
    apply Nat.mod_eq_of_lt
    unfold sectorLba at fits
    omega
  rw [start]
  exact u32_of_lt fits

theorem sectorLba_inj {d t : Nat} (first : Inside vol c) (second : Inside vol d)
    (small : s < vol.secPerCluster) (bounded : t < vol.secPerCluster) (same : sectorLba vol c s = sectorLba vol d t) :
    c = d ∧ s = t := by
  have sums : s + vol.secPerCluster * (c - 2) = t + vol.secPerCluster * (d - 2) := by
    unfold sectorLba at same
    rw [Nat.mul_comm vol.secPerCluster (c - 2), Nat.mul_comm vol.secPerCluster (d - 2)]
    omega
  have rows := congrArg (· / vol.secPerCluster) sums
  have columns := congrArg (· % vol.secPerCluster) sums
  simp only [Nat.add_mul_div_left _ _ sane.hasSectors, Nat.div_eq_of_lt small, Nat.div_eq_of_lt bounded] at rows
  simp only [Nat.add_mul_mod_self_left, Nat.mod_eq_of_lt small, Nat.mod_eq_of_lt bounded] at columns
  have firstLow := first.1
  have secondLow := second.1
  exact ⟨by omega, columns⟩

section
variable (small : c < vol.totalClusters + 2)
include small

theorem Sane.fat_before :
    vol.fatStart + 4 * c / 512 < vol.dataStart := by
  have below := sane.fatBelow
  omega

theorem Sane.fatSector_eq :
    fatSector vol c = vol.fatStart + 4 * c / 512 := by
  have before := sane.fat_before small
  have marks := sane.belowMarks
  have fits := sane.dataBelow
  have narrow : u32 (c * 4) = 4 * c := by rw [u32_of_lt (by omega)]; omega
  unfold fatSector
  rw [narrow, sane.sectorSize]
  exact u32_of_lt (by omega)

theorem Sane.fatOffset_eq : fatOffset vol c = 4 * c % 512 := by
  have marks := sane.belowMarks
  have narrow : u32 (c * 4) = 4 * c := by rw [u32_of_lt (by omega)]; omega
  unfold fatOffset
  rw [narrow, sane.sectorSize]

end

end

def store (disk : Nat → Mem) (lba : Nat) (mem : Mem) : Nat → Mem := fun other => if other = lba then mem else disk other

theorem view_store_fat (sane : Sane vol) (disk : Nat → Mem) (val : Nat) (small : c < vol.totalClusters + 2) :
    view vol (store disk (vol.fatStart + 4 * c / 512)
      ((disk (vol.fatStart + 4 * c / 512)).put (4 * c % 512) 4
        ((disk (vol.fatStart + 4 * c / 512)).le (4 * c % 512) 4 / 2 ^ 28 * 2 ^ 28 + val % 2 ^ 28))) =
      (view vol disk).setFat c (val % 2 ^ 28) := by
  have before := sane.fat_before small
  ext1
  · funext other
    simp only [view, View.setFat, store]
    by_cases same : other = c
    · subst same
      have old := Mem.le_lt (disk (vol.fatStart + 4 * other / 512)) (4 * other % 512) 4
      simp only [small, if_true, Mem.le_put]
      omega
    · simp only [same, if_false]
      by_cases near : vol.fatStart + 4 * other / 512 = vol.fatStart + 4 * c / 512
      · simp only [near, if_true]
        rw [Mem.le_put_apart _ _ _ _ (by omega)]
      · simp only [near, if_false]
  · funext other s
    simp only [view, View.setFat, store]
    have away : sectorLba vol other s ≠ vol.fatStart + 4 * c / 512 := by unfold sectorLba; omega
    simp only [away, if_false]

theorem view_store_sector (sane : Sane vol) (disk : Nat → Mem) (mem : Mem) (inside : Inside vol c)
    (small : s < vol.secPerCluster) :
    view vol (store disk (sectorLba vol c s) mem) = (view vol disk).setSector c s mem := by
  ext1
  · funext other
    simp only [view, View.setSector, store]
    split
    next below =>
      have before := sane.fat_before below
      have away : vol.fatStart + 4 * other / 512 ≠ sectorLba vol c s := by unfold sectorLba; omega
      simp only [away, if_false]
    next => rfl
  · funext other t
    simp only [view, View.setSector, store]
    by_cases here : other = c ∧ t = s
    · obtain ⟨rfl, rfl⟩ := here
      simp [inside, small]
    · simp only [here, if_false]
      split
      next valid =>
        have away : sectorLba vol other t ≠ sectorLba vol c s := fun same =>
          here (sectorLba_inj sane valid.1 inside valid.2 small same)
        simp only [away, if_false]
      next => rfl

section Steps

variable (faultless : Faultless vol)
include faultless

theorem readAbs_ends (lba : Nat) : Ends enough (readAbs vol lba) medium fun ok final =>
    ok = true ∧ final = { medium with sector := medium.disk lba } := by
  simp only [readAbs, faultless.reads, if_true]
  exact Ends.modify_then (Ends.pure ⟨rfl, rfl⟩)

theorem writeAbs_ends (lba : Nat) : Ends enough (writeAbs vol lba) medium fun ok final =>
    ok = true ∧ final.disk = store medium.disk lba medium.sector ∧ final.sector = medium.sector := by
  simp only [writeAbs, faultless.writes, if_true]
  exact Ends.modify_then (Ends.pure ⟨rfl, rfl, rfl⟩)

theorem read_then {β : Type} {post : β → Medium → Prop} {lba : Nat} {rest other : Io β}
    (next : Ends enough rest { medium with sector := medium.disk lba } post) :
    Ends enough (do if ← readAbs vol lba then rest else other) medium post := by
  refine (readAbs_ends faultless lba).bind fun ok final read => ?_
  simp only [read.1, read.2, if_true]
  exact next

variable {c : Nat}

theorem write_then {β : Type} {post : β → Medium → Prop} {s : Nat} {rest other : Io β} (sane : Sane vol)
    (inside : Inside vol c) (small : s < vol.secPerCluster)
    (next : ∀ final : Medium, view vol final.disk = (view vol medium.disk).setSector c s medium.sector →
      final.sector = medium.sector → Ends enough rest final post) :
    Ends enough (do if ← writeAbs vol (u32 (clusterToLba vol c + s)) then rest else other) medium post := by
  rw [sane.lba_eq inside small]
  refine (writeAbs_ends faultless _).bind fun ok final written => ?_
  simp only [written.1, if_true]
  exact next final (by rw [written.2.1, view_store_sector sane _ _ inside small]) written.2.2

variable (sane : Sane vol)
include sane

theorem fatGet_ends (small : c < vol.totalClusters + 2) : Ends enough (fatGet vol c) medium fun val final =>
    val = (view vol medium.disk).fat c ∧ final.disk = medium.disk := by
  unfold fatGet
  refine read_then faultless (Ends.get_then (Ends.pure ⟨?_, rfl⟩))
  simp only [view, small, if_true, sane.fatSector_eq small, sane.fatOffset_eq small]

theorem fatSet_ends {val : Nat} (small : c < vol.totalClusters + 2) (narrow : val < 2 ^ 28) :
    Ends enough (fatSet vol c val) medium fun ok final =>
      ok = true ∧ view vol final.disk = (view vol medium.disk).setFat c val := by
  unfold fatSet editSector
  refine read_then faultless (Ends.modify_then ?_)
  refine (writeAbs_ends faultless _).imp fun ok final written => ⟨written.1, ?_⟩
  rw [written.2.1, sane.fatSector_eq small, sane.fatOffset_eq small]
  have stored := view_store_fat sane medium.disk val small
  rw [Nat.mod_eq_of_lt narrow] at stored
  simpa only [Nat.mod_eq_of_lt narrow] using stored

def Allocated (candidates : List Nat) (before after : View) (c : Nat) : Prop :=
  c = 0 ∧ after = before ∧ (∀ other ∈ candidates, before.fat other ≠ 0) ∨
    c ∈ candidates ∧ before.fat c = 0 ∧ after = before.setFat c 0x0FFFFFFF

theorem allocFrom_ends (candidates : List Nat) (valid : ∀ c ∈ candidates, c < vol.totalClusters + 2) :
    Ends enough (allocFrom vol candidates) medium fun c final =>
      Allocated candidates (view vol medium.disk) (view vol final.disk) c := by
  induction candidates generalizing medium with
  | nil => exact Ends.pure (.inl ⟨rfl, rfl, fun _ member => by cases member⟩)
  | cons c rest ih =>
    unfold allocFrom
    refine (fatGet_ends faultless sane (valid c mem_cons_self)).bind fun val middle got => ?_
    refine Ends.branch (fun free => ?_) fun used => ?_
    · refine (fatSet_ends faultless sane (valid c mem_cons_self) (by omega)).bind fun ok final set => ?_
      simp only [set.1, if_true]
      refine Ends.pure (.inr ⟨mem_cons_self, got.1.symm.trans free, ?_⟩)
      simpa only [got.2] using set.2
    · refine (ih fun other member => valid other (mem_cons_of_mem _ member)).imp fun found final outcome => ?_
      rw [got.2] at outcome
      rcases outcome with ⟨none, same, full⟩ | ⟨member, free, marked⟩
      · refine .inl ⟨none, same, fun other member => ?_⟩
        rcases mem_cons.mp member with rfl | later
        · exact got.1 ▸ used
        · exact full other later
      · exact .inr ⟨mem_cons_of_mem _ member, free, marked⟩

def candidates (vol : Volume) : List Nat := List.range' 3 (vol.totalClusters - 1)

theorem fatAllocCluster_ends : Ends enough (fatAllocCluster vol) medium fun c final =>
    Allocated (candidates vol) (view vol medium.disk) (view vol final.disk) c := by
  have marks := sane.belowMarks
  have size : u32 (vol.totalClusters + 2) - 3 = vol.totalClusters - 1 := by rw [u32_of_lt (by omega)]; omega
  unfold fatAllocCluster
  rw [size]
  refine allocFrom_ends faultless sane _ fun c member => ?_
  have bounds := mem_range'_1.mp member
  omega

theorem fatFreeChain_ends {fuel start : Nat} {cs : List Nat} (links : (view vol medium.disk).Links vol start cs) :
    Ends (cs.length < fuel) (fatFreeChain vol fuel start) medium fun ok final =>
      ok = true ∧ view vol final.disk = (view vol medium.disk).freeAll cs := by
  induction cs generalizing fuel start medium with
  | nil =>
    cases fuel with
    | zero => exact Ends.exhausted (Nat.not_lt_zero _)
    | succ fuel =>
      cases links with
      | done ends =>
        unfold fatFreeChain
        simp only [not_inChain_of_isEnd ends, if_false]
        exact Ends.pure ⟨rfl, by simp [View.freeAll]⟩
  | cons c rest ih =>
    cases fuel with
    | zero => exact Ends.exhausted (Nat.not_lt_zero _)
    | succ fuel =>
      have fresh := (nodup_cons.mp (links.nodup sane.exclusive)).1
      cases links with
      | link inside tail =>
        unfold fatFreeChain
        simp only [sane.inChain inside, if_true]
        refine (fatGet_ends faultless sane inside.2).bind fun n middle got => ?_
        refine (fatSet_ends faultless sane inside.2 (by omega)).bind fun ok cleared set => ?_
        simp only [set.1, if_true]
        rw [got.2] at set
        rw [got.1]
        have kept : (view vol cleared.disk).Links vol ((view vol medium.disk).fat c) rest := by
          refine tail.congr fun place member => ?_
          have other : place ≠ c := fun same => fresh (same ▸ member)
          simp [set.2, View.setFat, other]
        refine (ih kept).mono (fun long => by simpa using long) fun ok final freed => ⟨freed.1, ?_⟩
        rw [freed.2, set.2]
        ext1
        · funext other
          by_cases here : other = c <;> simp [View.freeAll, View.setFat, here]
        · rfl

end Steps
end GWKernel.Fat
