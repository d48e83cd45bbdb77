import GWKernel.Lib.Run
import GWKernel.Proofs.FatSoundness

/-! The volume stays well formed along every run of successful operations on a sane geometry.
`fat_mount` accepts others: its limit on the number of clusters is two too high. -/

namespace GWKernel.Fat
open Lib List

variable {vol : Volume} {v w : View}

structure State where
  vol : Volume
  medium : Medium

inductive Op where
  | mkdir (path : List UInt8)
  | write (path data : List UInt8)
  | unlink (path : List UInt8)
  | chdir (path : List UInt8)

/-- A call that returns success. Paths have valid components, and the current
directory is not unlinked. -/
inductive Step : State → Op → State → Prop where
  | mkdir {vol : Volume} {before after : Medium} {path : List UInt8} {fuel : Nat} (valid : ValidPath path)
      (ran : fatMkdir vol fuel path before = some (true, after)) : Step ⟨vol, before⟩ (.mkdir path) ⟨vol, after⟩
  | write {vol : Volume} {before after : Medium} {path data : List UInt8} {fuel size : Nat} (valid : ValidPath path)
      (ran : fatWriteFile vol fuel path data before = some (some size, after)) :
      Step ⟨vol, before⟩ (.write path data) ⟨vol, after⟩
  | unlink {vol : Volume} {before after : Medium} {path : List UInt8} {fuel : Nat} (valid : ValidPath path)
      (ran : fatUnlink vol fuel path before = some (true, after))
      (spared : ∀ again size final, resolveFull vol again path before ≠ some (some (vol.cwdCluster, size, true), final)) :
      Step ⟨vol, before⟩ (.unlink path) ⟨vol, after⟩
  | chdir {vol moved : Volume} {before after : Medium} {path : List UInt8} {fuel : Nat} (valid : ValidPath path)
      (ran : fatChdir vol fuel path before = some ((true, moved), after)) :
      Step ⟨vol, before⟩ (.chdir path) ⟨moved, after⟩

/-- Chains in range, terminated and disjoint, every cluster in use reachable, unique names, and
nothing behind an unused slot. -/
def WellFormed (vol : Volume) (disk : Nat → Mem) : Prop := Sound vol (view vol disk) []

def IsDirectory (vol : Volume) (disk : Nat → Mem) (d : Nat) : Prop := ∃ owner, Owns vol (view vol disk) owner true d

structure Consistent (state : State) : Prop where
  mounted : state.vol.mounted = true
  faultless : Faultless state.vol
  sane : Sane state.vol
  formed : WellFormed state.vol state.medium.disk
  home : IsDirectory state.vol state.medium.disk state.vol.cwdCluster

theorem Consistent.ready {state : State} (consistent : Consistent state) :
    Ready state.vol (view state.vol state.medium.disk) :=
  ⟨consistent.mounted, consistent.faultless, consistent.sane, consistent.formed.toFormed, consistent.home⟩

theorem Owns.moved {owner : Option Pos} {isDir : Bool} {start : Nat} (cwd : Nat) (text : Mem)
    (owns : Owns vol v owner isDir start) :
    Owns { vol with cwdCluster := cwd, cwdPath := text } v owner isDir start := by
  induction owns with
  | root => exact .root
  | entry _ links listed live ih => exact .entry ih links listed live

theorem Sound.moved {loose : List Nat} (sound : Sound vol v loose) (cwd : Nat) (text : Mem) :
    Sound { vol with cwdCluster := cwd, cwdPath := text } v loose := by
  have back : ∀ {owner isDir start}, Owns { vol with cwdCluster := cwd, cwdPath := text } v owner isDir start →
      Owns vol v owner isDir start := fun owns => owns.moved vol.cwdCluster vol.cwdPath
  constructor
  · constructor
    · exact fun owns => sound.chained (back owns)
    · exact fun owns again => sound.apart (back owns) (back again)
    · exact fun owns => sound.unique (back owns)
  · exact fun owns => sound.zeroTail (back owns)
  · intro c inside used
    rcases sound.used inside used with free | ⟨owner, isDir, start, cs, owns, rest⟩
    · exact .inl free
    · exact .inr ⟨owner, isDir, start, cs, owns.moved cwd text, rest⟩
  · exact fun free owns => sound.unowned free (back owns)

theorem Sane.moved (sane : Sane vol) (cwd : Nat) (text : Mem) : Sane { vol with cwdCluster := cwd, cwdPath := text } :=
  ⟨sane.sectorSize, sane.hasSectors, sane.fatBelow, sane.dataBelow, sane.belowMarks⟩

theorem fatChdir_moves {fuel : Nat} {path : List UInt8} {before after : Medium} {moved : Volume}
    (ready : Ready vol (view vol before.disk)) (ran : fatChdir vol fuel path before = some ((true, moved), after)) :
    after.disk = before.disk ∧ ∃ cwd text, moved = { vol with cwdCluster := cwd, cwdPath := text } ∧
      IsDirectory vol before.disk cwd := by
  have spec : Ends (Fuelled vol fuel) (fatChdir vol fuel path) before fun result final =>
      result.1 = true → final.disk = before.disk ∧ ∃ cwd text,
        result.2 = { vol with cwdCluster := cwd, cwdPath := text } ∧ IsDirectory vol before.disk cwd := by
    unfold fatChdir
    refine Ends.branch (fun _ => ?_) fun _ => Ends.pure fun no => nomatch no
    refine (resolveFull_ends ready path).bind fun result middle ⟨same, resolved⟩ => ?_
    cases result with
    | none => exact Ends.pure fun no => nomatch no
    | some found =>
      obtain ⟨cl, size, isDir⟩ := found
      cases isDir with
      | false => exact Ends.pure fun no => nomatch no
      | true =>
        have place := ((resolved _).mp rfl).owns (ready.start path)
        refine Ends.branch (fun _ => Ends.pure fun _ => ⟨same, cl, _, rfl, place⟩) fun _ => ?_
        refine Ends.branch (fun _ => Ends.pure fun _ => ⟨same, vol.rootCluster, _, rfl, none, .root⟩) fun _ => ?_
        exact Ends.branch (fun _ => Ends.pure fun _ => ⟨same, cl, vol.cwdPath, rfl, place⟩) fun _ =>
          Ends.pure fun _ => ⟨same, cl, _, rfl, place⟩
  exact spec.2 _ _ ran rfl

section Preservation

variable {vol moved : Volume} {before after : Medium} {path data : List UInt8} {fuel size : Nat}
  (consistent : Consistent ⟨vol, before⟩)
include consistent

theorem Consistent.mkdir (leaf : StorableLeaf path) (ran : fatMkdir vol fuel path before = some (true, after)) :
    Consistent ⟨vol, after⟩ := by
  have made := (fatMkdir_ends consistent.ready path).2 _ _ ran
  obtain ⟨sound, kept⟩ := made.sound consistent.sane consistent.formed leaf
  obtain ⟨owner, owns⟩ := consistent.home
  exact ⟨consistent.mounted, consistent.faultless, consistent.sane, sound, owner, kept owns⟩

theorem Consistent.write (leaf : StorableLeaf path)
    (ran : fatWriteFile vol fuel path data before = some (some size, after)) : Consistent ⟨vol, after⟩ := by
  have wrote := (fatWriteFile_ends consistent.ready path data).2 _ _ ran
  obtain ⟨sound, kept⟩ := wrote.sound consistent.sane consistent.formed leaf
  obtain ⟨owner, owns⟩ := consistent.home
  exact ⟨consistent.mounted, consistent.faultless, consistent.sane, sound, owner, kept owns⟩

theorem Consistent.unlink (ran : fatUnlink vol fuel path before = some (true, after))
    (spared : ∀ again size final, resolveFull vol again path before ≠ some (some (vol.cwdCluster, size, true), final)) :
    Consistent ⟨vol, after⟩ := by
  have unlinked := (fatUnlink_ends consistent.ready path).2 _ _ ran
  obtain ⟨owner, owns⟩ := consistent.home
  have sound := unlinked.sound consistent.sane consistent.formed
  refine ⟨consistent.mounted, consistent.faultless, consistent.sane, sound, owner, ?_⟩
  refine unlinked.keeps consistent.sane consistent.formed owns fun size resolves => ?_
  have spec := @resolveFull_ends vol before (vol.totalClusters + 2) consistent.ready path
  obtain ⟨result, final, resolved, _, found⟩ := spec.returns (Nat.lt_succ_self _)
  rw [(found _).mpr resolves] at resolved
  exact spared _ _ _ resolved

theorem Consistent.chdir (ran : fatChdir vol fuel path before = some ((true, moved), after)) :
    Consistent ⟨moved, after⟩ := by
  obtain ⟨same, cwd, text, rfl, owner, owns⟩ := fatChdir_moves consistent.ready ran
  refine ⟨consistent.mounted, ⟨consistent.faultless.reads, consistent.faultless.writes⟩,
    consistent.sane.moved cwd text, ?_, owner, ?_⟩
  · have sound := consistent.formed.moved cwd text
    rw [← same] at sound
    exact sound
  · have stays := owns.moved cwd text
    rw [← same] at stays
    exact stays

end Preservation

theorem Step.preserves {before after : State} {op : Op} (consistent : Consistent before) (step : Step before op after) :
    Consistent after := by
  cases step with
  | mkdir valid ran => exact consistent.mkdir valid.leaf ran
  | write valid ran => exact consistent.write valid.leaf ran
  | unlink _ ran spared => exact consistent.unlink ran spared
  | chdir _ ran => exact consistent.chdir ran

/-- On a sane geometry without faults, every run of successful operations keeps the
volume well formed. -/
theorem well_formed_throughout {start final : State} {ops : List Op} (mounted : start.vol.mounted = true)
    (faultless : Faultless start.vol) (sane : Sane start.vol) (formed : WellFormed start.vol start.medium.disk)
    (home : IsDirectory start.vol start.medium.disk start.vol.cwdCluster) (run : Run Step start ops final) :
    WellFormed final.vol final.medium.disk :=
  (run.preserves (fun _ _ _ holds step => Step.preserves holds step) ⟨mounted, faultless, sane, formed, home⟩).formed

theorem sound_empty (root : Inside vol vol.rootCluster) (stops : IsEnd (v.fat vol.rootCluster))
    (others : ∀ c, Inside vol c → c ≠ vol.rootCluster → v.fat c = 0)
    (unused : ∀ pos ∈ slots vol [vol.rootCluster], v.slot pos 0 = 0) (exclusive : ∀ c, Inside vol c → ¬IsEnd c) :
    Sound vol v [] := by
  have rootLinks : v.Links vol vol.rootCluster [vol.rootCluster] := .link root (.done stops)
  have listing : v.listing vol [vol.rootCluster] = [] := by
    rw [View.listing, takeWhile_eq_nil_iff]
    intro nonempty
    simp [unused _ (getElem_mem nonempty)]
  have only : ∀ {owner isDir start}, Owns vol v owner isDir start → owner = none ∧ start = vol.rootCluster := by
    intro owner isDir start owns
    induction owns with
    | root => exact ⟨rfl, rfl⟩
    | entry _ links listed _ ih =>
      rw [ih.2] at links
      rw [links.unique exclusive rootLinks, listing] at listed
      cases listed
  constructor
  · constructor
    · intro owner isDir start owns
      rw [(only owns).2]
      exact .inr ⟨root, _, rootLinks⟩
    · intro owner other isDir otherDir start from_ cs ds owns again _ _ differ
      exact absurd ((only owns).1.trans (only again).1.symm) differ
    · intro owner d ds p q owns links first
      rw [(only owns).2] at links
      rw [links.unique exclusive rootLinks, listing] at first
      cases first
  · intro owner d ds owns links
    rw [(only owns).2] at links
    rw [links.unique exclusive rootLinks]
    exact pairwise_of_forall_mem_list fun p _ q member _ => unused q member
  · intro c inside used
    by_cases here : c = vol.rootCluster
    · exact .inr ⟨none, true, _, _, .root, rootLinks, by simp [here]⟩
    · exact absurd (others c inside here) used
  · intro c owner isDir start cs none
    cases none

theorem formed_single {pos : Pos} {rs cs : List Nat} (exclusive : ∀ c, Inside vol c → ¬IsEnd c)
    (root : Inside vol vol.rootCluster) (rootLinks : v.Links vol vol.rootCluster rs)
    (first : Inside vol (entryCluster (v.slot pos))) (links : v.Links vol (entryCluster (v.slot pos)) cs)
    (listing : ∀ q ∈ v.listing vol rs, entryHidden (v.slot q) = false → q = pos) (apart : ∀ c ∈ rs, c ∉ cs)
    (bare : entryIsDir (v.slot pos) = true → ∀ q ∈ v.listing vol cs, entryHidden (v.slot q) = true) : Formed vol v := by
  have only : ∀ {owner isDir start}, Owns vol v owner isDir start →
      owner = none ∧ start = vol.rootCluster ∨
        owner = some pos ∧ isDir = entryIsDir (v.slot pos) ∧ start = entryCluster (v.slot pos) := by
    intro owner isDir start owns
    induction owns with
    | root => exact .inl ⟨rfl, rfl⟩
    | entry _ below listed live ih =>
      rcases ih with ⟨_, rfl⟩ | ⟨_, isDir, rfl⟩
      · rw [below.unique exclusive rootLinks] at listed
        obtain rfl := listing _ listed live.1
        exact .inr ⟨rfl, rfl, rfl⟩
      · rw [below.unique exclusive links] at listed
        have hidden := bare isDir.symm _ listed
        rw [live.1] at hidden
        cases hidden
  constructor
  · intro owner isDir start owns
    rcases only owns with ⟨_, rfl⟩ | ⟨_, _, rfl⟩
    · exact .inr ⟨root, _, rootLinks⟩
    · exact .inr ⟨first, _, links⟩
  · intro owner other isDir otherDir start from_ ds es owns again here there differ c member
    rcases only owns with ⟨rfl, rfl⟩ | ⟨rfl, _, rfl⟩ <;> rcases only again with ⟨rfl, rfl⟩ | ⟨rfl, _, rfl⟩
    · exact absurd rfl differ
    · rw [here.unique exclusive rootLinks] at member
      rw [there.unique exclusive links]
      exact apart c member
    · rw [here.unique exclusive links] at member
      rw [there.unique exclusive rootLinks]
      exact fun too => apart c too member
    · exact absurd rfl differ
  · intro owner d ds p q owns below listed again shown too _
    rcases only owns with ⟨_, rfl⟩ | ⟨_, isDir, rfl⟩
    · rw [below.unique exclusive rootLinks] at listed again
      rw [listing p listed shown, listing q again too]
    · rw [below.unique exclusive links] at listed
      have hidden := bare isDir.symm _ listed
      rw [shown] at hidden
      cases hidden

def sampleDisk (fats root : UInt8) (table : Mem) (data : Nat → Mem) : Nat → Mem
  | 0 => fun byte => if byte = 510 then 0x55 else if byte = 511 then 0xAA else if byte = 0x1BE + 8 then 1 else 0
  | 1 => fun byte =>
    if byte = 12 then 2 else if byte = 13 then 1 else if byte = 14 then 1 else if byte = 16 then fats
    else if byte = 32 then 130 else if byte = 36 then 1 else if byte = 44 then root else 0
  | 2 => table
  | lba + 3 => data lba

def unmounted : Volume :=
  ⟨0, 0, 0, 0, 0, 0, 0, 0, 0, false, 0, blank, fun _ => true, fun _ => true⟩

/-- The volume that `fat_mount` finds on such a disk. -/
def sampleVolume (fats root : UInt8) : Volume :=
  { partLba := 1, fatStart := 2, dataStart := 2 + fats.toNat, rootCluster := root.toNat, bytesPerSec := 512
    secPerCluster := 1, numFats := fats.toNat, fatSizeSectors := 1, totalClusters := 129 - fats.toNat, mounted := true
    cwdCluster := root.toNat, cwdPath := (blank.put 0 1 0x2F).put 1 1 0, readable := fun _ => true
    writable := fun _ => true }

def emptyDisk (fats : UInt8) : Nat → Mem := sampleDisk fats 2 (blank.put 8 4 0x0FFFFFFF) fun _ => blank

def emptyMedium (fats : UInt8) : Medium := ⟨emptyDisk fats, emptyDisk fats 1, []⟩

theorem emptyDisk_mounts :
    fatMount unmounted ⟨emptyDisk 1, blank, []⟩ = some ((true, sampleVolume 1 2), emptyMedium 1) ∧
      fatMount unmounted ⟨emptyDisk 2, blank, []⟩ = some ((true, sampleVolume 2 2), emptyMedium 2) :=
  ⟨by rfl, by rfl⟩

theorem sampleVolume_exclusive (fats root : UInt8) (c : Nat) (inside : Inside (sampleVolume fats root) c) : ¬IsEnd c := by
  have high := inside.2
  simp only [sampleVolume] at high
  unfold IsEnd
  omega

theorem emptyDisk_wellFormed {fats : UInt8} (count : fats = 1 ∨ fats = 2) :
    WellFormed (sampleVolume fats 2) (emptyDisk fats) := by
  have below : (sampleVolume fats 2).totalClusters + 2 ≤ 130 := by
    rcases count with rfl | rfl <;> decide
  have table : ∀ c < 130, (view (sampleVolume fats 2) (emptyDisk fats)).fat c = if c = 2 then 0x0FFFFFFF else 0 := by
    rcases count with rfl | rfl <;> decide +kernel
  have root : (sampleVolume fats 2).rootCluster = 2 := rfl
  refine sound_empty ?_ ?_ (fun c inside other => ?_) ?_ (sampleVolume_exclusive fats 2)
  · rcases count with rfl | rfl <;> decide
  · rw [root, table 2 (by omega)]
    exact Nat.le_of_ble_eq_true rfl
  · have high := inside.2
    rw [table c (by omega)]
    simp only [root] at other
    simp [other]
  · rcases count with rfl | rfl <;> decide +kernel

theorem validPath_single {char : UInt8} (plain : validChar char = true) (notDeleted : char ≠ 0xE5) :
    ValidPath [char] := by
  have separator : isSeparator char = false := by
    simp only [validChar, Bool.and_eq_true, Bool.not_eq_true'] at plain
    exact plain.2
  intro part member
  have whole : pathParts [char].length [char] = [[char]] := by
    simp [pathParts, separator]
  rw [whole] at member
  obtain rfl := mem_singleton.mp member
  exact ⟨[char], [], .inl ⟨rfl, rfl⟩, by simp, by simp, by simpa using plain, by simpa using notDeleted⟩

theorem emptyMedium_consistent : Consistent ⟨sampleVolume 2 2, emptyMedium 2⟩ :=
  ⟨rfl, ⟨fun _ => rfl, fun _ => rfl⟩, ⟨rfl, by decide, by decide, by decide, by decide⟩,
    emptyDisk_wellFormed (.inr rfl), none, .root⟩

theorem well_formed_after_mkdir_and_write :
    ∃ final, Run Step ⟨sampleVolume 2 2, emptyMedium 2⟩ [.mkdir [0x42], .write [0x41] [1, 2, 3]] final ∧
      WellFormed final.vol final.medium.disk := by
  have ran : ((fatMkdir (sampleVolume 2 2) 200 [0x42] (emptyMedium 2)).bind fun made =>
      (fatWriteFile (sampleVolume 2 2) 200 [0x41] [1, 2, 3] made.2).map fun wrote => (made.1, wrote.1)) =
      some (true, some 3) := by decide +kernel
  obtain ⟨⟨made, middle⟩, first, rest⟩ := Option.bind_eq_some_iff.mp ran
  obtain ⟨⟨wrote, final⟩, second, results⟩ := Option.map_eq_some_iff.mp rest
  obtain ⟨rfl, rfl⟩ := Prod.mk.inj results
  have run : Run Step ⟨sampleVolume 2 2, emptyMedium 2⟩ [.mkdir [0x42], .write [0x41] [1, 2, 3]]
      ⟨sampleVolume 2 2, final⟩ :=
    .next (.mkdir (validPath_single (by decide) (by decide)) first)
      (.next (.write (validPath_single (by decide) (by decide)) second) (.done _))
  exact ⟨_, run, well_formed_throughout rfl ⟨fun _ => rfl, fun _ => rfl⟩
    ⟨rfl, by decide, by decide, by decide, by decide⟩ (emptyDisk_wellFormed (.inr rfl)) ⟨none, .root⟩ run⟩

/-- With one FAT of 128 entries and 128 clusters, the entry of cluster 128 is the beginning of the
root directory: the first file in it puts a mark there. -/
theorem write_loses_cluster :
    ∃ before after, fatMount unmounted ⟨emptyDisk 1, blank, []⟩ = some ((true, sampleVolume 1 2), before) ∧
      WellFormed (sampleVolume 1 2) before.disk ∧
      IsDirectory (sampleVolume 1 2) before.disk (sampleVolume 1 2).cwdCluster ∧
      Step ⟨sampleVolume 1 2, before⟩ (.write [0x41] []) ⟨sampleVolume 1 2, after⟩ ∧
      ¬WellFormed (sampleVolume 1 2) after.disk := by
  have ran : (fatWriteFile (sampleVolume 1 2) 3 [0x41] [] (emptyMedium 1)).map (fun wrote => decide (wrote.1 = some 0 ∧
      IsEnd ((view (sampleVolume 1 2) wrote.2.disk).fat 2) ∧ (view (sampleVolume 1 2) wrote.2.disk).fat 128 ≠ 0 ∧
      (view (sampleVolume 1 2) wrote.2.disk).listing (sampleVolume 1 2) [2] = [⟨2, 0, 0⟩] ∧
      entryIsDir ((view (sampleVolume 1 2) wrote.2.disk).slot ⟨2, 0, 0⟩) = false ∧
      entryCluster ((view (sampleVolume 1 2) wrote.2.disk).slot ⟨2, 0, 0⟩) = 0)) = some true := by decide +kernel
  obtain ⟨⟨wrote, after⟩, written, facts⟩ := Option.map_eq_some_iff.mp ran
  obtain ⟨rfl, stops, lost, listing, isFile, noCluster⟩ := of_decide_eq_true facts
  refine ⟨emptyMedium 1, after, emptyDisk_mounts.1, emptyDisk_wellFormed (.inl rfl), ⟨none, .root⟩,
    .write (validPath_single (by decide) (by decide)) written, fun sound => ?_⟩
  have exclusive := sampleVolume_exclusive 1 2
  have rootLinks : (view (sampleVolume 1 2) after.disk).Links (sampleVolume 1 2) 2 [2] :=
    .link (by decide) (.done stops)
  -- The new file is the only entry, and it owns no cluster.
  have only : ∀ {owner isDir start}, Owns (sampleVolume 1 2) (view (sampleVolume 1 2) after.disk) owner isDir start →
      isDir = true ∧ start = 2 ∨ isDir = false ∧ start = 0 := by
    intro owner isDir start owns
    induction owns with
    | root => exact .inl ⟨rfl, rfl⟩
    | entry _ links listed _ ih =>
      rcases ih with ⟨_, rfl⟩ | ⟨no, _⟩
      · rw [links.unique exclusive rootLinks, listing] at listed
        obtain rfl := mem_singleton.mp listed
        exact .inr ⟨isFile, noCluster⟩
      · cases no
  rcases sound.used (c := 128) (by decide) lost with loose | ⟨owner, isDir, start, cs, owns, links, member⟩
  · cases loose
  rcases only owns with ⟨_, rfl⟩ | ⟨_, rfl⟩
  · rw [links.unique exclusive rootLinks] at member
    simp at member
  · exact not_links_zero links

end GWKernel.Fat
