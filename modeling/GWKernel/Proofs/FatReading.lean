import GWKernel.Proofs.FatRoom

/-! What `fat_list` and `fat_read_file` tell of a well-formed volume, for every path. -/

namespace GWKernel.Fat
open Lib List

variable {vol : Volume} {medium : Medium} {fuel : Nat}

/-- The line that `fat_list` prints for an entry. -/
def lineOf (entry : Mem) : Line :=
  ⟨print83 (entryName entry), entryIsDir entry, if entryIsDir entry then 0 else entrySize entry⟩

/-- A line for each entry of a directory that is in use and no label, in their order. -/
def View.lines (vol : Volume) (v : View) (ds : List Nat) : List Line :=
  ((v.listing vol ds).filter fun pos => !entryHidden (v.slot pos)).map fun pos => lineOf (v.slot pos)

theorem scan_listVisit (v : View) (ds : List Nat) :
    conclude id (v.scan listVisit vol (slots vol ds) []) = v.lines vol ds := by
  suffices rest : ∀ places lines, conclude id (v.scan listVisit vol places lines) = lines ++
      ((places.takeWhile fun pos => v.slot pos 0 != 0).filter fun pos => !entryHidden (v.slot pos)).map
        fun pos => lineOf (v.slot pos) from rest _ []
  intro places
  induction places with
  | nil => exact fun lines => (append_nil lines).symm
  | cons pos rest ih =>
    intro lines
    simp only [View.scan, foldlM_cons] at ih ⊢
    by_cases unused : v.slot pos 0 = 0
    · simp [listVisit, unused, bind, Except.bind, conclude]
    by_cases hidden : entryHidden (v.slot pos) = true
    · simpa [listVisit, unused, hidden, bind, Except.bind] using ih lines
    · simpa [listVisit, unused, hidden, bind, Except.bind, lineOf, entryName] using ih (lines ++ [lineOf (v.slot pos)])

section
variable (ready : Ready vol (view vol medium.disk)) (path : List UInt8)
include ready

/-- `fat_list` shows the directory that the path names, and fails if it names none. -/
theorem fatList_shows : Ends (Fuelled vol fuel) (fatList vol fuel path) medium fun lines final =>
    final.disk = medium.disk ∧ ∀ shown, lines = some shown ↔ ∃ cl size ds,
      Resolves vol (view vol medium.disk) path (cl, size, true) ∧ (view vol medium.disk).Links vol cl ds ∧
        shown = (view vol medium.disk).lines vol ds := by
  unfold fatList
  refine Ends.branch (fun _ => ?_) fun unmounted => absurd ready.mounted unmounted
  refine (resolveFull_ends ready path).bind fun found middle told => ?_
  obtain ⟨same, resolves⟩ := told
  rcases found with _ | ⟨cl, size, _ | _⟩
  rotate_right
  · have here := (resolves _).mp rfl
    obtain ⟨owner, owns⟩ := here.owns (ready.start path)
    obtain ⟨_, ds, links⟩ := ready.formed.dir_links owns
    have length := links.length_le ready.sane
    rw [← same] at links here resolves ⊢
    refine ((scanChain_ends listVisit ready.faultless ready.sane id id links []).mono (fun long => ?_)
      fun _ _ scanned => scanned).bind fun lines final scanned => Ends.pure ⟨scanned.1, fun shown => ?_⟩
    · unfold Fuelled at long
      omega
    rw [scanned.2, scan_listVisit, Option.some.injEq]
    constructor
    · rintro rfl
      exact ⟨cl, size, ds, here, links, rfl⟩
    · rintro ⟨other, bytes, es, again, chain, rfl⟩
      cases (resolves _).mpr again
      rw [links.unique ready.sane.exclusive chain]
  all_goals
    refine Ends.pure ⟨same, fun shown => ⟨fun no => (by cases no), ?_⟩⟩
    rintro ⟨other, bytes, es, again, _⟩
    cases (resolves _).mpr again

theorem fatReadFile_none (missing : ∀ pos cs, ¬FileAt vol (view vol medium.disk) path pos cs) (maxlen : Nat) :
    Ends (Fuelled vol fuel) (fatReadFile vol fuel path maxlen) medium fun read _ => read = none := by
  unfold fatReadFile
  refine Ends.branch (fun _ => ?_) fun _ => .pure rfl
  refine (resolveFull_ends ready path).bind fun found middle told => ?_
  rcases found with _ | ⟨cl, size, _ | _⟩
  · exact .pure rfl
  · obtain ⟨pos, cs, file⟩ := ((told.2 _).mp rfl).fileAt ready.formed
    exact absurd file (missing pos cs)
  · exact .pure rfl

omit ready in
theorem Resolves.chain {v : View} (formed : Formed vol v) {cl size : Nat} (resolves : Resolves vol v path (cl, size, false)) :
    cl = 0 ∨ ∃ cs, v.Links vol cl cs := by
  generalize leaf : (cl, size, false) = result at resolves
  cases resolves with
  | start _ => cases leaf
  | parent _ _ => cases leaf
  | @entry parent name owner ps pos _ target found =>
    have cluster : cl = entryCluster (v.slot pos) := congrArg Prod.fst leaf
    rw [cluster]
    rcases formed.chained (target.owns.found target.links found) with ⟨_, zero⟩ | ⟨_, cs, chain⟩
    · exact .inl zero
    · exact .inr ⟨cs, chain⟩

theorem fatReadFile_keeps (maxlen : Nat) :
    Ends (Fuelled vol fuel) (fatReadFile vol fuel path maxlen) medium fun _ final => final.disk = medium.disk := by
  unfold fatReadFile
  refine Ends.branch (fun _ => ?_) fun _ => .pure rfl
  refine (resolveFull_ends ready path).bind fun found middle told => ?_
  obtain ⟨same, resolves⟩ := told
  rcases found with _ | ⟨cl, size, _ | _⟩
  · exact .pure same
  · rw [← same] at resolves ready ⊢
    rcases ((resolves _).mp rfl).chain path ready.formed with rfl | ⟨cs, links⟩
    · cases fuel with
      | zero => exact Ends.exhausted (Nat.not_lt_zero _)
      | succ fuel =>
        unfold readClusters
        exact Ends.branch (fun chained => absurd chained.1 (by decide)) fun _ => .pure rfl
    · have length := links.length_le ready.sane
      refine (readClusters_ends ready.faultless ready.sane links _).mono (fun long => ?_) fun _ _ outcome => outcome.1
      unfold Fuelled at long
      omega
  · exact .pure same

/-- `fat_read_file` returns the beginning of the file that the path names, and fails if it
names none. -/
theorem fatReadFile_reads (maxlen : Nat) : Ends (Fuelled vol fuel) (fatReadFile vol fuel path maxlen) medium
    fun read final => final.disk = medium.disk ∧
      ∀ bytes, read = some bytes ↔ ∃ pos cs, FileAt vol (view vol medium.disk) path pos cs ∧
        bytes = ((view vol medium.disk).bytes vol cs).take (min (entrySize ((view vol medium.disk).slot pos)) maxlen) := by
  have reads {pos : Pos} {cs : List Nat} (file : FileAt vol (view vol medium.disk) path pos cs) :=
    @fatReadFile_follows vol _ medium fuel ready.faultless ready.sane ready.mounted path pos cs file rfl maxlen
  have keeps := @fatReadFile_keeps vol medium fuel ready path maxlen
  refine ⟨keeps.1, fun read final ran => ⟨keeps.2 read final ran, fun bytes => ?_⟩⟩
  by_cases known : ∃ pos cs, FileAt vol (view vol medium.disk) path pos cs
  · obtain ⟨pos, cs, file⟩ := known
    refine ⟨fun same => ⟨pos, cs, file, ?_⟩, ?_⟩
    · exact Option.some.inj (same.symm.trans ((reads file).2 read final ran))
    · rintro ⟨other, ds, again, rfl⟩
      exact (reads again).2 read final ran
  · have missing : ∀ pos cs, ¬FileAt vol (view vol medium.disk) path pos cs := fun pos cs file => known ⟨pos, cs, file⟩
    have failed := (fatReadFile_none ready path missing maxlen).2 read final ran
    refine ⟨fun same => ?_, ?_⟩
    · cases failed.symm.trans same
    · rintro ⟨pos, cs, file, _⟩
      exact absurd file (missing pos cs)

end

/-- The root directory holds a label, a deleted entry and the file `A`. -/
def mixedRoot : List UInt8 :=
  0x56 :: replicate 10 0x20 ++ 0x08 :: replicate 20 0 ++ 0xE5 :: replicate 31 0 ++
    0x41 :: replicate 10 0x20 ++ 0x20 :: replicate 14 0 ++ [3, 0, 3, 0, 0, 0]

def mixedDisk : Nat → Mem := sampleDisk 2 2 ((blank.put 8 4 0x0FFFFFFF).put 12 4 0x0FFFFFFF) fun
  | 1 => blank.copy 0 mixedRoot
  | 2 => blank.copy 0 [1, 2, 3]
  | _ => blank

def mixedMedium : Medium := ⟨mixedDisk, mixedDisk 1, []⟩

theorem mixedMedium_ready : Ready (sampleVolume 2 2) (view (sampleVolume 2 2) mixedMedium.disk) := by
  have cluster : entryCluster ((view (sampleVolume 2 2) mixedMedium.disk).slot ⟨2, 0, 2⟩) = 3 := by decide +kernel
  have file : entryIsDir ((view (sampleVolume 2 2) mixedMedium.disk).slot ⟨2, 0, 2⟩) = false := by decide +kernel
  have links : (view (sampleVolume 2 2) mixedMedium.disk).Links (sampleVolume 2 2) 3 [3] :=
    .link (by decide) (.done (by decide +kernel))
  refine ⟨rfl, ⟨fun _ => rfl, fun _ => rfl⟩, ⟨rfl, by decide, by decide, by decide, by decide⟩, ?_, none, .root⟩
  refine formed_single (sampleVolume_exclusive 2 2) (by decide) (.link (by decide) (.done (by decide +kernel)))
    (cluster.symm ▸ (by decide)) (cluster.symm ▸ links) (by decide +kernel) (by decide) fun isDir => ?_
  rw [file] at isDir
  cases isDir

theorem fatList_shows_mixed :
    ∃ final, fatList (sampleVolume 2 2) 200 [] mixedMedium = some (some [⟨[0x41], false, 3⟩], final) ∧
      final.disk = mixedMedium.disk := by
  have shown : (fatList (sampleVolume 2 2) 200 [] mixedMedium).map Prod.fst = some (some [⟨[0x41], false, 3⟩]) := by
    decide +kernel
  obtain ⟨lines, final, ran, same, _⟩ := (@fatList_shows _ _ 200 mixedMedium_ready []).returns (by unfold Fuelled; decide)
  rw [ran] at shown
  cases shown
  exact ⟨final, ran, same⟩

theorem fatReadFile_reads_mixed :
    ∃ final, fatReadFile (sampleVolume 2 2) 200 [0x41] 2 mixedMedium = some (some [1, 2], final) ∧
      final.disk = mixedMedium.disk := by
  have shown : (fatReadFile (sampleVolume 2 2) 200 [0x41] 2 mixedMedium).map Prod.fst = some (some [1, 2]) := by
    decide +kernel
  obtain ⟨read, final, ran, same, _⟩ := (@fatReadFile_reads _ _ 200 mixedMedium_ready [0x41] 2).returns
    (by unfold Fuelled; decide)
  rw [ran] at shown
  cases shown
  exact ⟨final, ran, same⟩

end GWKernel.Fat
