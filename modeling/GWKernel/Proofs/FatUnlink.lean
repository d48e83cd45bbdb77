import GWKernel.Proofs.FatConsistency

/-! Which directories `fat_unlink` removes. Its test counts labels and pieces of long names, and
takes every name that begins like `.` or `..` for one of the two. -/

namespace GWKernel.Fat
open Lib

variable {vol : Volume} {medium : Medium} {fuel : Nat} {path name : List UInt8} {parent : Nat} {owner : Option Pos}
  {ps cs : List Nat} {pos : Pos}

/-- An entry that `dir_find` and `fat_list` consider present, other than `.` and `..`. -/
def Shown (entry : Mem) : Prop :=
  entryHidden entry = false ∧ entryName entry ≠ dotName ∧ entryName entry ≠ dotdotName

instance (entry : Mem) : Decidable (Shown entry) := inferInstanceAs (Decidable (_ ∧ _ ∧ _))

variable {entry : Mem}

theorem entryDot_of_name (named : entryName entry = dotName ∨ entryName entry = dotdotName) :
    entryDot entry = true := by
  have bytes : entryName entry =
      [entry 0, entry 1, entry 2, entry 3, entry 4, entry 5, entry 6, entry 7, entry 8, entry 9, entry 10] := rfl
  have dot : dotName = 0x2E :: List.replicate 10 0x20 := rfl
  have dotdot : dotdotName = 0x2E :: 0x2E :: List.replicate 9 0x20 := rfl
  rw [bytes, dot, dotdot] at named
  unfold entryDot
  rcases named with is | is <;> simp only [List.replicate, List.cons.injEq] at is
  · simp [is.1, is.2.1]
  · simp [is.1, is.2.1, is.2.2.1]

theorem Blocking.shown (blocking : Blocking entry) (visible : entryHidden entry = false) : Shown entry := by
  refine ⟨visible, fun named => ?_, fun named => ?_⟩
  · exact Bool.noConfusion (blocking.2.symm.trans (entryDot_of_name (.inl named)))
  · exact Bool.noConfusion (blocking.2.symm.trans (entryDot_of_name (.inr named)))

theorem Shown.blocking (shown : Shown entry) (plain : entryDot entry = false) : Blocking entry :=
  Live.blocking ⟨shown.1, plain⟩

theorem fatUnlink_directory (ready : Ready vol (view vol medium.disk))
    (target : Target vol (view vol medium.disk) path parent name owner ps)
    (found : (view vol medium.disk).lookup vol name ps = some pos)
    (isDir : entryIsDir ((view vol medium.disk).slot pos) = true)
    (links : (view vol medium.disk).Links vol (entryCluster ((view vol medium.disk).slot pos)) cs) :
    Ends (Fuelled vol fuel) (fatUnlink vol fuel path) medium fun ok _ =>
      ok = true ↔ ∀ q ∈ (view vol medium.disk).listing vol cs, ¬Blocking ((view vol medium.disk).slot q) := by
  unfold fatUnlink
  rw [if_pos ⟨ready.mounted, target.path_ne_nil⟩]
  refine resolve_then ready id (fun final _ none => absurd target (none _ _ _ _)) ?_
  intro middle parent' name' owner' ps' same again
  obtain ⟨rfl, rfl, rfl⟩ := target.unique ready.sane again
  rw [← same] at ready target found isDir links ⊢
  refine (find_ends ready id target.links).bind fun result current ⟨kept, search⟩ => ?_
  rw [← kept] at ready target found isDir links search ⊢
  rw [search, found]
  have chain : ChainOf vol (view vol current.disk) ((view vol current.disk).slot pos) cs := .inr links
  refine (dirEmpty_ends ready id chain).bind fun removable tested ⟨still, test⟩ => ?_
  rw [← still] at ready target found isDir chain test ⊢
  rw [← test isDir]
  refine Ends.branch (fun removes => ?_) fun stays => Ends.pure (iff_of_false Bool.false_ne_true stays)
  refine (freeEntry_ends ready id chain).bind fun _ freed _ => ?_
  have place := place_of_mem target.links (View.mem_slots_of_listing (lookup_some found).1)
  refine (deleteEntry_ends ready.faultless ready.sane place.1 place.2).imp fun ok final deleted => ?_
  exact iff_of_true deleted.1 removes

/-- `fat_unlink` removes a directory exactly when it shows no entry but `.` and `..`, if and only
if: whenever a hidden entry blocks it an entry is shown, and whenever an entry is shown whose name
begins like `.` or `..` another blocks. -/
theorem unlink_directory_iff (ready : Ready vol (view vol medium.disk)) (fuelled : Fuelled vol fuel)
    (target : Target vol (view vol medium.disk) path parent name owner ps)
    (found : (view vol medium.disk).lookup vol name ps = some pos)
    (isDir : entryIsDir ((view vol medium.disk).slot pos) = true)
    (links : (view vol medium.disk).Links vol (entryCluster ((view vol medium.disk).slot pos)) cs) :
    ((∃ final, fatUnlink vol fuel path medium = some (true, final)) ↔
        ∀ q ∈ (view vol medium.disk).listing vol cs, ¬Shown ((view vol medium.disk).slot q)) ↔
      ((∃ q ∈ (view vol medium.disk).listing vol cs, Blocking ((view vol medium.disk).slot q) ∧
          entryHidden ((view vol medium.disk).slot q) = true) →
        ∃ q ∈ (view vol medium.disk).listing vol cs, Shown ((view vol medium.disk).slot q)) ∧
      ((∃ q ∈ (view vol medium.disk).listing vol cs, Shown ((view vol medium.disk).slot q) ∧
          entryDot ((view vol medium.disk).slot q) = true) →
        ∃ q ∈ (view vol medium.disk).listing vol cs, Blocking ((view vol medium.disk).slot q)) := by
  obtain ⟨ok, final, ran, test⟩ := (fatUnlink_directory ready target found isDir links).returns fuelled
  have removed : (∃ final, fatUnlink vol fuel path medium = some (true, final)) ↔
      ∀ q ∈ (view vol medium.disk).listing vol cs, ¬Blocking ((view vol medium.disk).slot q) := by
    rw [← test, ran]
    exact ⟨fun ⟨_, is⟩ => (Prod.mk.inj (Option.some.inj is)).1, fun is => ⟨final, by rw [is]⟩⟩
  rw [removed]
  generalize (view vol medium.disk).listing vol cs = places
  constructor
  · intro agree
    refine ⟨fun ⟨q, listed, blocking, _⟩ => ?_, fun ⟨q, listed, shown, _⟩ => ?_⟩
    · by_contra none
      exact agree.mpr (fun p here shown => none ⟨p, here, shown⟩) q listed blocking
    · by_contra none
      exact agree.mp (fun p here blocking => none ⟨p, here, blocking⟩) q listed shown
  · rintro ⟨hidden, dotted⟩
    refine ⟨fun free q listed shown => ?_, fun bare q listed blocking => ?_⟩
    · cases plain : entryDot ((view vol medium.disk).slot q) with
      | false => exact free q listed (shown.blocking plain)
      | true =>
        obtain ⟨p, here, blocking⟩ := dotted ⟨q, listed, shown, plain⟩
        exact free p here blocking
    · cases visible : entryHidden ((view vol medium.disk).slot q) with
      | false => exact bare q listed (blocking.shown visible)
      | true =>
        obtain ⟨p, here, shown⟩ := hidden ⟨q, listed, blocking, visible⟩
        exact bare p here shown

def lonelyDisk (entry : Mem) : Nat → Mem :=
  sampleDisk 2 2 (fun byte => if byte < 8 then 0 else if byte < 16 then 0xFF else 0) fun lba =>
    if lba = 1 then newEntry [0x44] 0x10 3 0 else if lba = 2 then entry else blank

def lonelyMedium (entry : Mem) : Medium := ⟨lonelyDisk entry, lonelyDisk entry 1, []⟩

def longNamePiece : Mem := fun byte => if byte = 0 then 0x41 else if byte = 11 then 0x0F else 0

theorem lonelyDisk_mounts : fatMount unmounted ⟨lonelyDisk longNamePiece, blank, []⟩ =
    some ((true, sampleVolume 2 2), lonelyMedium longNamePiece) := by rfl

structure Lonely (entry : Mem) : Prop where
  rootLinks : (view (sampleVolume 2 2) (lonelyDisk entry)).Links (sampleVolume 2 2) 2 [2]
  links : (view (sampleVolume 2 2) (lonelyDisk entry)).Links (sampleVolume 2 2) 3 [3]
  listing : (view (sampleVolume 2 2) (lonelyDisk entry)).listing (sampleVolume 2 2) [2] = [⟨2, 0, 0⟩]
  found : (view (sampleVolume 2 2) (lonelyDisk entry)).lookup (sampleVolume 2 2) [0x44] [2] = some ⟨2, 0, 0⟩
  isDir : entryIsDir ((view (sampleVolume 2 2) (lonelyDisk entry)).slot ⟨2, 0, 0⟩) = true
  cluster : entryCluster ((view (sampleVolume 2 2) (lonelyDisk entry)).slot ⟨2, 0, 0⟩) = 3
  bare : ∀ q ∈ (view (sampleVolume 2 2) (lonelyDisk entry)).listing (sampleVolume 2 2) [3],
    entryHidden ((view (sampleVolume 2 2) (lonelyDisk entry)).slot q) = true

theorem lonely (is : entry = blank ∨ entry = longNamePiece) : Lonely entry := by
  rcases is with rfl | rfl <;>
  exact ⟨.link (by decide) (.done (by decide +kernel)), .link (by decide) (.done (by decide +kernel)),
    by decide +kernel, by decide +kernel, by decide +kernel, by decide +kernel, by decide +kernel⟩

theorem Lonely.ready (lonely : Lonely entry) :
    Ready (sampleVolume 2 2) (view (sampleVolume 2 2) (lonelyMedium entry).disk) := by
  refine ⟨rfl, ⟨fun _ => rfl, fun _ => rfl⟩, ⟨rfl, by decide, by decide, by decide, by decide⟩, ?_, none, .root⟩
  have listing : ∀ q ∈ (view (sampleVolume 2 2) (lonelyMedium entry).disk).listing (sampleVolume 2 2) [2],
      entryHidden ((view (sampleVolume 2 2) (lonelyMedium entry).disk).slot q) = false → q = ⟨2, 0, 0⟩ := fun q listed _ => by
    have listed : q ∈ (view (sampleVolume 2 2) (lonelyDisk entry)).listing (sampleVolume 2 2) [2] := listed
    rw [lonely.listing] at listed
    exact List.mem_singleton.mp listed
  refine formed_single (sampleVolume_exclusive 2 2) (by decide) lonely.rootLinks ?_ ?_ listing (by decide)
    fun _ => lonely.bare
  · exact lonely.cluster.symm ▸ (by decide)
  · exact lonely.cluster.symm ▸ lonely.links

theorem Lonely.target (lonely : Lonely entry) :
    Target (sampleVolume 2 2) (view (sampleVolume 2 2) (lonelyMedium entry).disk) [0x44] 2 [0x44] none [2] :=
  ⟨.last, by decide, .root, lonely.rootLinks⟩

theorem unlink_directory_iff_bare :
    ∃ final, fatUnlink (sampleVolume 2 2) 200 [0x44] (lonelyMedium blank) = some (true, final) := by
  have disk := lonely (.inl rfl : blank = blank ∨ _)
  have nothing : (view (sampleVolume 2 2) (lonelyDisk blank)).listing (sampleVolume 2 2) [3] = [] := by decide +kernel
  have iff := unlink_directory_iff disk.ready (Nat.lt_of_sub_pos (by decide) : Fuelled (sampleVolume 2 2) 200)
    disk.target disk.found disk.isDir (disk.cluster.symm ▸ disk.links)
  refine (iff.mpr ⟨?_, ?_⟩).mpr fun q listed => ?_
  · rintro ⟨q, listed, _⟩
    exact absurd (nothing ▸ listed) List.not_mem_nil
  · rintro ⟨q, listed, _⟩
    exact absurd (nothing ▸ listed) List.not_mem_nil
  · exact absurd (nothing ▸ listed) List.not_mem_nil

/-- A directory that shows nothing but holds the piece of a long name is not removed. -/
theorem bare_directory_not_removed :
    fatMount unmounted ⟨lonelyDisk longNamePiece, blank, []⟩ =
        some ((true, sampleVolume 2 2), lonelyMedium longNamePiece) ∧
      Ready (sampleVolume 2 2) (view (sampleVolume 2 2) (lonelyMedium longNamePiece).disk) ∧
      Target (sampleVolume 2 2) (view (sampleVolume 2 2) (lonelyMedium longNamePiece).disk) [0x44] 2 [0x44] none [2] ∧
      (∀ q ∈ (view (sampleVolume 2 2) (lonelyMedium longNamePiece).disk).listing (sampleVolume 2 2) [3],
        ¬Shown ((view (sampleVolume 2 2) (lonelyMedium longNamePiece).disk).slot q)) ∧
      (fatList (sampleVolume 2 2) 200 [0x44] (lonelyMedium longNamePiece)).map Prod.fst = some (some []) ∧
      (fatUnlink (sampleVolume 2 2) 200 [0x44] (lonelyMedium longNamePiece)).map Prod.fst = some false := by
  have disk := lonely (.inr rfl : longNamePiece = blank ∨ _)
  refine ⟨lonelyDisk_mounts, disk.ready, disk.target, fun q listed shown => ?_, by decide +kernel, by decide +kernel⟩
  exact Bool.noConfusion (shown.1.symm.trans (disk.bare q listed))

end GWKernel.Fat
