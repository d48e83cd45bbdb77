import GWKernel.Proofs.FatConsistency
import GWKernel.Proofs.FatLookup

/-! The copies of the FAT. `fat_set` writes the first one only, so they stay identical as long as
no entry is changed. -/

namespace GWKernel.Fat
open Lib

variable {vol : Volume} {medium : Medium} {enough : Prop}

def InFats (vol : Volume) (lba : Nat) : Prop :=
  vol.fatStart ≤ lba ∧ lba < vol.fatStart + vol.numFats * vol.fatSizeSectors

/-- Every copy has the bytes of the first one. -/
def CopiesAgree (vol : Volume) (disk : Nat → Mem) : Prop :=
  ∀ copy < vol.numFats, ∀ s < vol.fatSizeSectors, ∀ byte < 512,
    disk (vol.fatStart + copy * vol.fatSizeSectors + s) byte = disk (vol.fatStart + s) byte

theorem inFats_of_copy {copy s : Nat} (counted : copy < vol.numFats) (inside : s < vol.fatSizeSectors) :
    InFats vol (vol.fatStart + copy * vol.fatSizeSectors + s) := by
  have room : (copy + 1) * vol.fatSizeSectors ≤ vol.numFats * vol.fatSizeSectors := Nat.mul_le_mul_right _ counted
  rw [Nat.add_mul, Nat.one_mul] at room
  exact ⟨by omega, by omega⟩

theorem CopiesAgree.writes {before after : Medium} (agree : CopiesAgree vol before.disk)
    (moved : WritesIn (fun lba => ¬InFats vol lba) before after) : CopiesAgree vol after.disk := by
  intro copy counted s inside byte small
  have first := @inFats_of_copy vol 0 s (by omega) inside
  rw [Nat.zero_mul, Nat.add_zero] at first
  rw [moved.kept _ (not_not_intro (inFats_of_copy counted inside)), moved.kept _ (not_not_intro first)]
  exact agree copy counted s inside byte small

theorem copiesAgree_single (single : vol.numFats ≤ 1) (disk : Nat → Mem) : CopiesAgree vol disk := by
  intro copy counted s _ byte _
  obtain rfl : copy = 0 := by omega
  rw [Nat.zero_mul, Nat.add_zero]

def NoneFree (vol : Volume) (disk : Nat → Mem) : Prop :=
  ∀ c ∈ List.range' 3 (u32 (vol.totalClusters + 2) - 3), fatEntry vol disk c ≠ 0

/-- A directory entry without a slot in the copies, for a file that gets no clusters; or there
are none to get. -/
def Quiet (vol : Volume) (disk : Nat → Mem) (data : List UInt8) (lba : Nat) : Prop :=
  data = [] ∧ ¬InFats vol lba ∨ data ≠ [] ∧ NoneFree vol disk

/-- The call leaves the copies alone: no directory is made, and a file written or unlinked has no
clusters. -/
def Spared (vol : Volume) (disk : Nat → Mem) : Op → Prop
  | .mkdir path => ∀ parent name, Located vol disk path parent name none → NoneFree vol disk
  | .write path data =>
    (∀ parent name entry, Located vol disk path parent name (some entry) →
      entry.isDir = true ∨ ¬InChain entry.cluster ∧ Quiet vol disk data entry.lba) ∧
    ∀ parent name, Located vol disk path parent name none → ∃ slot : Nat × Nat, Quiet vol disk data slot.1 ∧
      (data = [] → Scans vol disk slotVisit (fun _ => none) (fun _ => none) parent () (some slot))
  | .unlink path => ∀ parent name entry, Located vol disk path parent name (some entry) →
      ¬InChain entry.cluster ∧ ¬InFats vol entry.lba
  | .chdir _ => True

theorem allocFrom_none (clusters : List Nat) (used : ∀ c ∈ clusters, fatEntry vol medium.disk c ≠ 0) :
    Ends enough (allocFrom vol clusters) medium fun c final => c = 0 ∧ Same medium final := by
  induction clusters generalizing medium with
  | nil => exact Ends.pure ⟨rfl, Same.refl _⟩
  | cons c rest ih =>
    refine (fatGet_tells c).bind fun value middle ⟨is, same⟩ => ?_
    have taken : value ≠ 0 := is ▸ used c List.mem_cons_self
    refine Ends.branch (fun free => absurd free taken) fun _ => ?_
    refine (ih fun other listed => ?_).imp fun _ _ ⟨zero, again⟩ => ⟨zero, same.trans again⟩
    rw [same.1]
    exact used other (List.mem_cons_of_mem _ listed)

theorem fatAllocCluster_none (full : NoneFree vol medium.disk) :
    Ends enough (fatAllocCluster vol) medium fun c final => c = 0 ∧ Same medium final :=
  allocFrom_none _ full

theorem fatFreeChain_none {fuel cl : Nat} (outside : ¬InChain cl) :
    Ends False (fatFreeChain vol fuel cl) medium fun _ final => Same medium final := by
  cases fuel with
  | zero => exact Ends.exhausted id
  | succ fuel =>
    rw [fatFreeChain, if_neg outside]
    exact Ends.pure (Same.refl _)

theorem dirAllocSlot_full (full : NoneFree vol medium.disk) (fuel cur : Nat) :
    Ends False (dirAllocSlot vol fuel cur) medium fun _ final => Same medium final := by
  induction fuel generalizing cur medium with
  | zero => exact Ends.exhausted id
  | succ fuel ih =>
    refine (scanSectors_tells cur _ ()).bind fun result middle ⟨_, same⟩ => ?_
    cases result with
    | error result => exact Ends.pure same
    | ok _ =>
      refine (fatGet_tells cur).bind fun link after ⟨_, again⟩ => ?_
      have both := same.trans again
      have still : NoneFree vol after.disk := by
        rw [both.1]
        exact full
      refine Ends.branch (fun _ => ?_) fun _ => (ih still link).imp fun _ _ more => both.trans more
      refine (fatAllocCluster_none still).bind fun c final ⟨zero, more⟩ => ?_
      exact Ends.branch (fun _ => Ends.pure (both.trans more)) fun nonzero => absurd zero nonzero

theorem dirAllocSlot_found {cur : Nat} {result : Option (Nat × Nat)} {slot : Nat × Nat}
    (scans : Scans vol medium.disk slotVisit (fun _ => none) (fun _ => none) cur () result) (found : result = some slot)
    (fuel : Nat) :
    Ends False (dirAllocSlot vol fuel cur) medium fun answer final => answer = some slot ∧ Same medium final := by
  generalize here : medium.disk = disk at scans
  generalize () = acc at scans
  induction scans generalizing fuel medium with
  | leaves _ => cases found
  | @stops cur acc result inside stop =>
    cases fuel with
    | zero => exact Ends.exhausted id
    | succ fuel =>
      refine (scanSectors_tells cur _ ()).bind fun answer middle ⟨is, same⟩ => ?_
      rw [here, stop, found] at is
      subst is
      exact Ends.pure ⟨rfl, same⟩
  | @follows cur acc next result inside passed rest ih =>
    cases fuel with
    | zero => exact Ends.exhausted id
    | succ fuel =>
      refine (scanSectors_tells cur _ ()).bind fun answer middle ⟨is, same⟩ => ?_
      rw [here, passed] at is
      subst is
      refine (fatGet_tells cur).bind fun link after ⟨linked, again⟩ => ?_
      have both := same.trans again
      have kept : after.disk = disk := both.1.trans here
      have link' : link = fatEntry vol disk cur := by rw [linked, same.1, here]
      refine Ends.branch (fun past => ?_) fun _ => ?_
      · have outside : ¬InChain (fatEntry vol disk cur) := fun inside => by
          have below := inside.2
          omega
        cases rest with
        | leaves _ => cases found
        | stops inside _ => exact absurd inside outside
        | follows inside _ _ => exact absurd inside outside
      · rw [link']
        exact (ih found fuel kept).imp fun _ _ ⟨is, more⟩ => ⟨is, both.trans more⟩

section Operations

variable {path data : List UInt8} (fuel : Nat)

theorem fatUnlink_spared (spared : Spared vol medium.disk (.unlink path)) :
    Ends False (fatUnlink vol fuel path) medium fun _ final => WritesIn (fun lba => ¬InFats vol lba) medium final := by
  refine Ends.branch (fun _ => ?_) fun _ => Ends.pure (refl _)
  refine locate_then (fun _ same => same.writes) fun parent name found middle located same => ?_
  cases found with
  | none => exact Ends.pure same.writes
  | some entry =>
    obtain ⟨outside, away⟩ := spared parent name entry located
    have looked : Ends False (if entry.isDir then dirEmpty vol fuel entry.cluster else pure true) middle fun _ final =>
        Same middle final :=
      Ends.branch (fun _ => (scanChain_tells _ _ _).imp fun _ _ told => told.2) fun _ => Ends.pure (Same.refl _)
    refine looked.bind fun removable after again => ?_
    refine Ends.branch (fun _ => ?_) fun _ => Ends.pure (same.trans again).writes
    have freed : Ends False (if 2 ≤ entry.cluster then fatFreeChain vol fuel entry.cluster else pure true) after
        fun _ final => Same after final :=
      Ends.branch (fun _ => fatFreeChain_none outside) fun _ => Ends.pure (Same.refl _)
    refine freed.bind fun _ last more => ?_
    exact ((deleteEntry_moves away).ends last).imp fun _ _ moved => ((same.trans again).trans more).then_writes moved

theorem writeClusters_full (full : NoneFree vol medium.disk) (first prev : Nat) (data : List UInt8) :
    Ends False (writeClusters vol fuel first prev data) medium fun result final => result = none ∧ Same medium final := by
  cases fuel with
  | zero => exact Ends.exhausted id
  | succ fuel =>
    refine (fatAllocCluster_none full).bind fun c after ⟨zero, same⟩ => ?_
    exact Ends.branch (fun _ => Ends.pure ⟨rfl, same⟩) fun nonzero => absurd zero nonzero

theorem writeContent_quiet {slot : Nat × Nat} (name : List UInt8) (quiet : Quiet vol medium.disk data slot.1) :
    Ends False (writeContent vol fuel slot name data) medium fun _ final =>
      WritesIn (fun lba => ¬InFats vol lba) medium final := by
  have content : Ends False (if data = [] then pure (some 0) else writeClusters vol fuel 0 0 data) medium
      fun first final => Same medium final ∧ (first ≠ none → ¬InFats vol slot.1) := by
    rcases quiet with ⟨empty, away⟩ | ⟨nonempty, full⟩
    · exact Ends.branch (fun _ => Ends.pure ⟨Same.refl _, fun _ => away⟩) fun nonempty => absurd empty nonempty
    · refine Ends.branch (fun empty => absurd empty nonempty) fun _ => ?_
      exact (writeClusters_full fuel full 0 0 data).imp fun _ _ ⟨is, same⟩ => ⟨same, fun some' => absurd is some'⟩
  refine content.bind fun first middle ⟨same, away⟩ => ?_
  cases first with
  | none => exact Ends.pure same.writes
  | some first =>
    have entry := (@writeEntry_moves (fun lba => ¬InFats vol lba) vol slot (away (by simp)) name 0x20 first
      data.length).ends middle
    refine entry.bind fun ok final moved => ?_
    exact Ends.branch (fun _ => Ends.pure (same.then_writes moved)) fun _ => Ends.pure (same.then_writes moved)

theorem fatWriteFile_spared (spared : Spared vol medium.disk (.write path data)) :
    Ends False (fatWriteFile vol fuel path data) medium fun _ final =>
      WritesIn (fun lba => ¬InFats vol lba) medium final := by
  obtain ⟨existing, vacant⟩ := spared
  refine Ends.branch (fun _ => ?_) fun _ => Ends.pure (refl _)
  refine locate_then (fun _ same => same.writes) fun parent name found middle located same => ?_
  have moves : ∀ {slot : Nat × Nat} {last : Medium}, Quiet vol medium.disk data slot.1 → Same medium last →
      Ends False (writeContent vol fuel slot name data) last fun _ final =>
        WritesIn (fun lba => ¬InFats vol lba) medium final := by
    intro slot last quiet kept
    rw [← kept.1] at quiet
    exact (writeContent_quiet fuel name quiet).imp fun _ _ moved => kept.then_writes moved
  cases found with
  | some entry =>
    rcases existing parent name entry located with isDir | ⟨outside, quiet⟩
    · exact Ends.branch (fun _ => Ends.pure same.writes) fun noDir => absurd isDir noDir
    · refine Ends.branch (fun _ => Ends.pure same.writes) fun _ => ?_
      have freed : Ends False (if 2 ≤ entry.cluster then fatFreeChain vol fuel entry.cluster else pure true) middle
          fun _ final => Same middle final :=
        Ends.branch (fun _ => fatFreeChain_none outside) fun _ => Ends.pure (Same.refl _)
      exact freed.bind fun _ last more => moves quiet (same.trans more)
  | none =>
    obtain ⟨slot, quiet, free⟩ := vacant parent name located
    by_cases empty : data = []
    · have scans := free empty
      rw [← same.1] at scans
      refine (dirAllocSlot_found scans rfl fuel).bind fun answer last ⟨is, more⟩ => ?_
      subst is
      exact moves quiet (same.trans more)
    · have full := (quiet.resolve_left fun quiet => empty quiet.1).2
      rw [← same.1] at full
      refine (dirAllocSlot_full full fuel parent).bind fun answer last more => ?_
      cases answer with
      | none => exact Ends.pure (same.trans more).writes
      | some other =>
        rw [same.1] at full
        exact moves (.inr ⟨empty, full⟩) (same.trans more)

theorem fatMkdir_spared (spared : Spared vol medium.disk (.mkdir path)) :
    Ends False (fatMkdir vol fuel path) medium fun _ final => WritesIn (fun lba => ¬InFats vol lba) medium final := by
  refine Ends.branch (fun _ => ?_) fun _ => Ends.pure (refl _)
  refine locate_then (fun _ same => same.writes) fun parent name found middle located same => ?_
  cases found with
  | some entry => exact Ends.pure same.writes
  | none =>
    have full := spared parent name located
    rw [← same.1] at full
    refine (fatAllocCluster_none full).bind fun c after ⟨zero, again⟩ => ?_
    exact Ends.branch (fun _ => Ends.pure (same.trans again).writes) fun nonzero => absurd zero nonzero

end Operations

inductive Attempt : State → Op → State → Prop where
  | mkdir {vol : Volume} {before after : Medium} {path : List UInt8} {fuel : Nat} {ok : Bool}
      (ran : fatMkdir vol fuel path before = some (ok, after)) : Attempt ⟨vol, before⟩ (.mkdir path) ⟨vol, after⟩
  | write {vol : Volume} {before after : Medium} {path data : List UInt8} {fuel : Nat} {size : Option Nat}
      (ran : fatWriteFile vol fuel path data before = some (size, after)) :
      Attempt ⟨vol, before⟩ (.write path data) ⟨vol, after⟩
  | unlink {vol : Volume} {before after : Medium} {path : List UInt8} {fuel : Nat} {ok : Bool}
      (ran : fatUnlink vol fuel path before = some (ok, after)) : Attempt ⟨vol, before⟩ (.unlink path) ⟨vol, after⟩
  | chdir {vol moved : Volume} {before after : Medium} {path : List UInt8} {fuel : Nat} {ok : Bool}
      (ran : fatChdir vol fuel path before = some ((ok, moved), after)) :
      Attempt ⟨vol, before⟩ (.chdir path) ⟨moved, after⟩

/-- There is one copy only, or the call leaves the copies alone. -/
def Harmonious (state : State) (op : Op) : Prop :=
  state.vol.numFats ≤ 1 ∨ Spared state.vol state.medium.disk op

theorem Attempt.copies {before after : State} {op : Op} (attempt : Attempt before op after)
    (harmonious : Harmonious before op) (agree : CopiesAgree before.vol before.medium.disk) :
    CopiesAgree after.vol after.medium.disk := by
  rcases harmonious with single | spared
  · cases attempt with
    | chdir ran =>
      obtain ⟨_, cwd, text, rfl⟩ := (fatChdir_tells _ _).2 _ _ ran
      exact copiesAgree_single single _
    | _ => exact copiesAgree_single single _
  · cases attempt with
    | mkdir ran => exact agree.writes ((fatMkdir_spared _ spared).2 _ _ ran)
    | write ran => exact agree.writes ((fatWriteFile_spared _ spared).2 _ _ ran)
    | unlink ran => exact agree.writes ((fatUnlink_spared _ spared).2 _ _ ran)
    | chdir ran =>
      obtain ⟨same, cwd, text, rfl⟩ := (fatChdir_tells _ _).2 _ _ ran
      rw [← same.1] at agree
      exact agree

/-- In a run whose calls leave the copies alone, or with a single FAT, the copies stay identical.
-/
theorem copies_agree_throughout {start final : State} {ops : List Op}
    (agree : CopiesAgree start.vol start.medium.disk)
    (run : Run (fun before op after => Attempt before op after ∧ Harmonious before op) start ops final) :
    CopiesAgree final.vol final.medium.disk :=
  @Run.preserves _ _ _ (fun state => CopiesAgree state.vol state.medium.disk)
    (fun _ _ _ agree moves => moves.1.copies moves.2 agree) _ _ _ run agree

instance (vol : Volume) (disk : Nat → Mem) : Decidable (CopiesAgree vol disk) := by
  unfold CopiesAgree
  infer_instance

def mirroredDisk : Nat → Mem :=
  sampleDisk 2 2 (blank.put 8 4 0x0FFFFFFF) fun lba => if lba = 0 then blank.put 8 4 0x0FFFFFFF else blank

def mirroredMedium : Medium := ⟨mirroredDisk, mirroredDisk 1, []⟩

theorem mirroredDisk_mounts :
    fatMount unmounted ⟨mirroredDisk, blank, []⟩ = some ((true, sampleVolume 2 2), mirroredMedium) := by rfl

theorem copies_agree_after_empty_file : ∃ final,
    Run (fun before op after => Attempt before op after ∧ Harmonious before op)
      ⟨sampleVolume 2 2, mirroredMedium⟩ [.write [0x41] []] final ∧ CopiesAgree final.vol final.medium.disk := by
  have ran : (fatWriteFile (sampleVolume 2 2) 9 [0x41] [] mirroredMedium).isSome := by decide +kernel
  have absent : (dirFind (sampleVolume 2 2) 9 2 [0x41] mirroredMedium).map Prod.fst = some none := by decide +kernel
  have free : (scanChain (sampleVolume 2 2) slotVisit (fun _ => none) (fun _ => none) 9 2 () mirroredMedium).map Prod.fst =
      some (some (4, 0)) := by decide +kernel
  obtain ⟨⟨size, after⟩, wrote⟩ := Option.isSome_iff_exists.mp ran
  obtain ⟨⟨_, _⟩, looked, rfl⟩ := Option.map_eq_some_iff.mp absent
  obtain ⟨⟨_, _⟩, scanned, rfl⟩ := Option.map_eq_some_iff.mp free
  have located : ∀ {parent name found}, Located (sampleVolume 2 2) mirroredDisk [0x41] parent name found →
      parent = 2 ∧ found = none := by
    rintro parent name found ⟨resolved, _, finds⟩
    cases resolved
    exact ⟨rfl, finds.unique ((dirFind_tells 9 2 [0x41]).2 _ _ looked).1⟩
  have spared : Spared (sampleVolume 2 2) mirroredDisk (.write [0x41] []) := by
    refine ⟨fun parent name entry is => (nomatch (located is).2), fun parent name is => ⟨(4, 0), .inl ⟨rfl, ?_⟩, fun _ => ?_⟩⟩
    · simp [InFats, sampleVolume]
    · rw [(located is).1]
      exact ((scanChain_tells 9 2 ()).2 _ _ scanned).1
  have run : Run (fun before op after => Attempt before op after ∧ Harmonious before op)
      ⟨sampleVolume 2 2, mirroredMedium⟩ [.write [0x41] []] ⟨sampleVolume 2 2, after⟩ :=
    .next ⟨.write wrote, .inr spared⟩ (.done _)
  exact ⟨_, run, copies_agree_throughout (by decide +kernel) run⟩

/-- The first directory takes cluster 3 in the first FAT only. -/
theorem mkdir_splits_copies : ∃ before after,
    fatMount unmounted ⟨mirroredDisk, blank, []⟩ = some ((true, sampleVolume 2 2), before) ∧
      CopiesAgree (sampleVolume 2 2) before.disk ∧
      fatMkdir (sampleVolume 2 2) 9 [0x41] before = some (true, after) ∧ ¬CopiesAgree (sampleVolume 2 2) after.disk := by
  have ran : (fatMkdir (sampleVolume 2 2) 9 [0x41] mirroredMedium).map (fun made =>
      (made.1, decide (CopiesAgree (sampleVolume 2 2) made.2.disk))) = some (true, false) := by decide +kernel
  obtain ⟨⟨ok, after⟩, made, facts⟩ := Option.map_eq_some_iff.mp ran
  obtain ⟨rfl, differ⟩ := Prod.mk.inj facts
  exact ⟨mirroredMedium, after, mirroredDisk_mounts, by decide +kernel, made, of_decide_eq_false differ⟩

end GWKernel.Fat
