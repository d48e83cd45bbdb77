import GWKernel.Proofs.FatConsistency
import GWKernel.Proofs.FatLookup

/-! The geometry that `fat_mount` takes from a boot sector, sound for exactly those of
`Fields.Sound`: the limit forgets the two FAT entries that belong to no cluster, a volume too
small for one cluster is given clusters, and sums may wrap. -/

namespace GWKernel.Fat
open Lib

structure Fields where
  clusterSectors : Nat
  reserved : Nat
  fats : Nat
  rootEntries : Nat
  fatSectors : Nat
  totalSectors : Nat

def fieldsOf (boot : Mem) : Fields where
  clusterSectors := (boot 13).toNat
  reserved := boot.le 14 2
  fats := (boot 16).toNat
  rootEntries := boot.le 17 2
  fatSectors := if boot.le 22 2 = 0 then boot.le 36 4 else boot.le 22 2
  totalSectors := if boot.le 32 4 = 0 then boot.le 19 2 else boot.le 32 4

def partitionOf (disk : Nat → Mem) : Nat :=
  if disk 0 (0x1BE + 4) = 0xEE then (disk ((disk 1).le 72 4)).le 32 4 else (disk 0).le (0x1BE + 8) 4

namespace Fields

/-- The sectors of the partition before the data area. -/
def front (fields : Fields) : Nat :=
  fields.reserved + fields.fats * fields.fatSectors + (fields.rootEntries * 32 + 511) / 512

def room (fields : Fields) : Nat := (fields.totalSectors - fields.front) / fields.clusterSectors

/-- The clusters that have both room and an entry in the FAT, when there are any. -/
def clusters (fields : Fields) : Nat :=
  if 128 * fields.fatSectors < fields.room then 128 * fields.fatSectors - 2 else fields.room

/-- The clusters fit into the volume and their entries into the FAT, and no address has more
than 32 bits. -/
structure Sound (fields : Fields) (part : Nat) : Prop where
  hasSectors : 1 ≤ fields.clusterSectors
  hasFat : 1 ≤ fields.fatSectors
  hasCluster : fields.front + fields.clusterSectors ≤ fields.totalSectors
  entries : fields.room + 2 ≤ 128 * fields.fatSectors ∨ 128 * fields.fatSectors < fields.room
  fatNarrow : 512 * fields.fatSectors < 2 ^ 32
  frontNarrow : part + fields.front < 2 ^ 32
  lastEntryNarrow : part + fields.reserved + (fields.clusters + 1) / 128 < 2 ^ 32
  lastSectorNarrow : part + fields.front + fields.clusters * fields.clusterSectors ≤ 2 ^ 32

end Fields

/-- Every cluster has its FAT entry in the FAT and its sectors in the partition, and nothing
wraps. -/
structure Addressable (vol : Volume) (fields : Fields) : Prop where
  hasSectors : 1 ≤ vol.secPerCluster
  startNarrow : vol.partLba + fields.front < 2 ^ 32
  sizeNarrow : 512 * vol.fatSizeSectors < 2 ^ 32
  entry : ∀ c, Inside vol c → 4 * c + 4 ≤ 512 * vol.fatSizeSectors
  entryNarrow : ∀ c, Inside vol c → 4 * c < 2 ^ 32 ∧ vol.fatStart + 4 * c / 512 < 2 ^ 32
  sectors : ∀ c s, Inside vol c → s < vol.secPerCluster → vol.partLba ≤ sectorLba vol c s ∧
    sectorLba vol c s < vol.partLba + fields.totalSectors
  sectorNarrow : ∀ c s, Inside vol c → s < vol.secPerCluster → sectorLba vol c s < 2 ^ 32

variable {vol : Volume} {medium : Medium}

theorem readAbs_then {β : Type} {post : β → Medium → Prop} {lba : Nat} {rest other : Io β}
    (refused : ∀ final, Same medium final → Ends False other final post)
    (next : ∀ final, Same medium final → final.sector = medium.disk lba → Ends False rest final post) :
    Ends False (do if ← readAbs vol lba then rest else other) medium post := by
  refine (readAbs_tells lba).bind fun ok final ⟨known, same, read⟩ => ?_
  exact Ends.branch (fun granted => next final same (read (known.symm.trans granted))) fun _ => refused final same

theorem partitionLba_tells :
    Ends False (partitionLba (readAbs vol) theSector (medium.disk 0)) medium fun result final =>
      Same medium final ∧ ∀ part, result = some part → part = partitionOf medium.disk := by
  unfold partitionLba partitionOf
  refine Ends.branch (fun gpt => ?_) fun mbr => Ends.pure ⟨Same.refl _, fun part found => ?_⟩
  · refine readAbs_then (fun final same => Ends.pure ⟨same, fun _ none => nomatch none⟩) fun header same read => ?_
    refine Ends.get_then (readAbs_then (fun final again => Ends.pure ⟨same.trans again, fun _ none => nomatch none⟩)
      fun entry again entryRead => Ends.get_then (Ends.pure ⟨same.trans again, fun part found => ?_⟩))
    rw [if_pos gpt, ← Option.some.inj found, entryRead, same.1, read]
  · rw [if_neg mbr, Option.some.inj found]

theorem fatMount_layout {mounted : Volume} {final : Medium}
    (ran : fatMount vol medium = some ((true, mounted), final)) :
    ∃ base : Volume, base.partLba = partitionOf medium.disk ∧ (medium.disk (partitionOf medium.disk)).le 11 2 = 512 ∧
      mounted = bootLayout (medium.disk (partitionOf medium.disk))
        (bootFields (medium.disk (partitionOf medium.disk)) base) := by
  have spec : Ends False (fatMount vol) medium fun result _ => result.1 = true →
      ∃ base : Volume, base.partLba = partitionOf medium.disk ∧ (medium.disk (partitionOf medium.disk)).le 11 2 = 512 ∧
        result.2 = bootLayout (medium.disk (partitionOf medium.disk))
          (bootFields (medium.disk (partitionOf medium.disk)) base) := by
    unfold fatMount haveMbr
    refine readAbs_then (fun _ _ => Ends.pure fun no => nomatch no) fun first same read => Ends.get_then ?_
    refine Ends.branch (fun _ => Ends.pure fun no => nomatch no) fun _ => ?_
    rw [read, ← same.1]
    refine partitionLba_tells.bind fun result middle ⟨again, found⟩ => ?_
    cases result with
    | none => exact Ends.pure fun no => nomatch no
    | some part =>
      obtain rfl := found part rfl
      refine readAbs_then (fun _ _ => Ends.pure fun no => nomatch no) fun boot _ bootRead => Ends.get_then ?_
      refine Ends.branch (fun _ => Ends.pure fun no => nomatch no) fun accepted => Ends.pure fun _ => ?_
      rw [bootRead, again.1] at accepted ⊢
      exact ⟨_, rfl, Decidable.not_not.mp accepted, rfl⟩
  exact spec.2 _ _ ran rfl

def Fields.accepted (fields : Fields) : Nat :=
  if fields.room = 0 ∨ 128 * fields.fatSectors < fields.room then
    if 2 < 128 * fields.fatSectors then 128 * fields.fatSectors - 2 else 1000
  else fields.room

theorem Fields.accepted_eq (fields : Fields) (room : 1 ≤ fields.room) (hasFat : 1 ≤ fields.fatSectors) :
    fields.accepted = fields.clusters := by
  unfold accepted clusters
  split
  · split <;> split <;> omega
  · split <;> omega

structure Laid (vol : Volume) (fields : Fields) (part : Nat) : Prop where
  partLba : vol.partLba = part
  spc : vol.secPerCluster = fields.clusterSectors
  fatSize : vol.fatSizeSectors = fields.fatSectors
  fatStart : vol.fatStart = part + fields.reserved
  dataStart : vol.dataStart = part + fields.front
  clusters : vol.totalClusters = fields.accepted

theorem laid_of_narrow (boot : Mem) {base : Volume} {part : Nat} (known : base.partLba = part)
    (frontNarrow : part + (fieldsOf boot).front < 2 ^ 32) (fatNarrow : 512 * (fieldsOf boot).fatSectors < 2 ^ 32) :
    Laid (bootLayout boot (bootFields boot base)) (fieldsOf boot) part := by
  have front : (fieldsOf boot).front = boot.le 14 2 + (boot 16).toNat * (fieldsOf boot).fatSectors +
      (boot.le 17 2 * 32 + 511) / 512 := rfl
  have fatStart : u32 (part + boot.le 14 2) = part + boot.le 14 2 := u32_of_lt (by omega)
  have dataStart : u32 (part + boot.le 14 2 + (boot 16).toNat * (fieldsOf boot).fatSectors +
      (boot.le 17 2 * 32 + 511) / 512) = part + (fieldsOf boot).front := by
    rw [u32_of_lt (by omega)]
    omega
  have before : u32 (part + (fieldsOf boot).front + 2 ^ 32 - part) = (fieldsOf boot).front := by
    unfold u32
    omega
  have entries : u32 ((fieldsOf boot).fatSectors * 512) / 4 = 128 * (fieldsOf boot).fatSectors := by
    rw [u32_of_lt (by omega)]
    omega
  have room : (if (boot 13).toNat = 0 then 0 else (if (fieldsOf boot).front < (fieldsOf boot).totalSectors then
      (fieldsOf boot).totalSectors - (fieldsOf boot).front else 0) / (boot 13).toNat) = (fieldsOf boot).room := by
    have sectors : (if (fieldsOf boot).front < (fieldsOf boot).totalSectors then
        (fieldsOf boot).totalSectors - (fieldsOf boot).front else 0) =
        (fieldsOf boot).totalSectors - (fieldsOf boot).front := by
      split <;> omega
    have spc : (fieldsOf boot).clusterSectors = (boot 13).toNat := rfl
    rw [sectors, Fields.room, spc]
    split
    next zero => rw [zero, Nat.div_zero]
    next => rfl
  refine ⟨known, rfl, rfl, ?_, ?_, ?_⟩
  · exact (congrArg (fun start => u32 (start + boot.le 14 2)) known).trans fatStart
  · simp only [bootLayout, bootFields, known, fatStart]
    exact dataStart
  · simp only [bootLayout, bootFields, known, fatStart]
    have total : (if boot.le 32 4 = 0 then boot.le 19 2 else boot.le 32 4) = (fieldsOf boot).totalSectors := rfl
    have size : (if boot.le 22 2 = 0 then boot.le 36 4 else boot.le 22 2) = (fieldsOf boot).fatSectors := rfl
    rw [size, total, dataStart, before, entries, room]
    rfl

theorem Laid.addressable_iff {fields : Fields} {part : Nat} (laid : Laid vol fields part)
    (frontNarrow : part + fields.front < 2 ^ 32) (fatNarrow : 512 * fields.fatSectors < 2 ^ 32) :
    Addressable vol fields ↔ fields.Sound part := by
  constructor
  · intro good
    have hasSectors := good.hasSectors
    rw [laid.spc] at hasSectors
    have positive : 1 ≤ vol.totalClusters := by
      rw [laid.clusters, Fields.accepted]
      split
      · split <;> omega
      · omega
    -- The last sector of the first cluster is in the partition.
    have first := (good.sectors 2 (fields.clusterSectors - 1) ⟨by omega, by omega⟩ (by rw [laid.spc]; omega)).2
    have hasEntry := good.entry 2 ⟨by omega, by omega⟩
    rw [laid.fatSize] at hasEntry
    simp only [sectorLba, laid.dataStart, laid.partLba, laid.spc, Nat.sub_self, Nat.zero_mul] at first
    have hasCluster : fields.front + fields.clusterSectors ≤ fields.totalSectors := by omega
    have room : 1 ≤ fields.room := (Nat.one_le_div_iff (by omega)).mpr (by omega)
    have clusters : vol.totalClusters = fields.clusters := laid.clusters.trans (fields.accepted_eq room (by omega))
    rw [clusters] at positive
    have last : Inside vol (fields.clusters + 1) := ⟨by omega, by omega⟩
    refine ⟨hasSectors, by omega, hasCluster, ?_, fatNarrow, frontNarrow, ?_, ?_⟩
    · have entry := good.entry _ last
      rw [laid.fatSize] at entry
      unfold Fields.clusters at entry
      split at entry <;> omega
    · have narrow := (good.entryNarrow _ last).2
      rw [laid.fatStart] at narrow
      omega
    · have narrow := good.sectorNarrow _ (fields.clusterSectors - 1) last (by rw [laid.spc]; omega)
      simp only [sectorLba, laid.dataStart, laid.spc] at narrow
      have rows : fields.clusters * fields.clusterSectors =
          (fields.clusters + 1 - 2) * fields.clusterSectors + fields.clusterSectors := by
        conv => lhs; rw [show fields.clusters = fields.clusters + 1 - 2 + 1 by omega, Nat.succ_mul]
      omega
  · intro sound
    have room : 1 ≤ fields.room :=
      (Nat.one_le_div_iff sound.hasSectors).mpr (by have fits := sound.hasCluster; omega)
    have clusters : vol.totalClusters = fields.clusters := laid.clusters.trans (fields.accepted_eq room sound.hasFat)
    have entries : fields.clusters + 2 ≤ 128 * fields.fatSectors := by
      have counts := sound.entries
      have hasFat := sound.hasFat
      unfold Fields.clusters
      split <;> omega
    have fewer : fields.clusters ≤ fields.room := by
      unfold Fields.clusters
      split <;> omega
    have inRoom : fields.clusters * fields.clusterSectors ≤ fields.totalSectors - fields.front :=
      (Nat.mul_le_mul_right _ fewer).trans (Nat.div_mul_le_self _ _)
    have entryNarrow := sound.lastEntryNarrow
    have sectorNarrow := sound.lastSectorNarrow
    have hasCluster := sound.hasCluster
    -- A sector of a cluster lies before the end of the clusters.
    have offset : ∀ {c s : Nat}, Inside vol c → s < vol.secPerCluster →
        (c - 2) * fields.clusterSectors + s < fields.clusters * fields.clusterSectors := by
      intro c s inside small
      rw [laid.spc] at small
      have rows : (c - 2 + 1) * fields.clusterSectors ≤ fields.clusters * fields.clusterSectors :=
        Nat.mul_le_mul_right _ (by have low := inside.1; have high := inside.2; omega)
      rw [Nat.succ_mul] at rows
      omega
    refine ⟨laid.spc ▸ sound.hasSectors, laid.partLba.symm ▸ frontNarrow, laid.fatSize.symm ▸ fatNarrow, ?_, ?_, ?_, ?_⟩
    · intro c inside
      have high := inside.2
      rw [laid.fatSize]
      omega
    · intro c inside
      have high := inside.2
      rw [laid.fatStart]
      constructor <;> omega
    · intro c s inside small
      have below := offset inside small
      simp only [sectorLba, laid.dataStart, laid.partLba, laid.spc]
      constructor <;> omega
    · intro c s inside small
      have below := offset inside small
      simp only [sectorLba, laid.dataStart, laid.spc]
      omega

/-- The geometry of a mounted volume is sound if and only if its boot sector is. -/
theorem mount_geometry_sound_iff {vol mounted : Volume} {medium final : Medium}
    (ran : fatMount vol medium = some ((true, mounted), final)) :
    Addressable mounted (fieldsOf (medium.disk (partitionOf medium.disk))) ↔
      (fieldsOf (medium.disk (partitionOf medium.disk))).Sound (partitionOf medium.disk) := by
  obtain ⟨base, part, _, rfl⟩ := fatMount_layout ran
  generalize medium.disk (partitionOf medium.disk) = boot
  have starts : (bootLayout boot (bootFields boot base)).partLba = partitionOf medium.disk := part
  have size : (bootLayout boot (bootFields boot base)).fatSizeSectors = (fieldsOf boot).fatSectors := rfl
  constructor
  · intro good
    have frontNarrow := good.startNarrow
    have fatNarrow := good.sizeNarrow
    rw [starts] at frontNarrow
    rw [size] at fatNarrow
    exact ((laid_of_narrow boot part frontNarrow fatNarrow).addressable_iff frontNarrow fatNarrow).mp good
  · intro sound
    exact ((laid_of_narrow boot part sound.frontNarrow sound.fatNarrow).addressable_iff sound.frontNarrow
      sound.fatNarrow).mpr sound

theorem mount_geometry_sound_with_three_fats :
    ∃ mounted final, fatMount unmounted ⟨emptyDisk 3, blank, []⟩ = some ((true, mounted), final) ∧
      Addressable mounted (fieldsOf (emptyDisk 3 1)) := by
  have mounts : fatMount unmounted ⟨emptyDisk 3, blank, []⟩ = some ((true, sampleVolume 3 2), emptyMedium 3) := by rfl
  refine ⟨_, _, mounts, (mount_geometry_sound_iff mounts).mpr ?_⟩
  exact ⟨by decide +kernel, by decide +kernel, by decide +kernel, by decide +kernel, by decide +kernel, by decide +kernel,
    by decide +kernel, by decide +kernel⟩

/-- With one FAT of one sector there are 128 clusters: the last two have no entry in it. -/
theorem mount_accepts_clusters_without_entry :
    fatMount unmounted ⟨emptyDisk 1, blank, []⟩ = some ((true, sampleVolume 1 2), emptyMedium 1) ∧
      Inside (sampleVolume 1 2) 128 ∧ ¬4 * 128 + 4 ≤ 512 * (sampleVolume 1 2).fatSizeSectors :=
  ⟨emptyDisk_mounts.1, by decide, by decide⟩

end GWKernel.Fat
