import GWKernel.Proofs.FatContent

/-! What the operations do to a view, for every path and with every way in which they fail. -/

namespace GWKernel.Fat
open Lib

variable {vol : Volume} {v w : View} {enough : Prop} {medium : Medium}

/-- The directory and the name that a path leads to. -/
structure Target (vol : Volume) (v : View) (path : List UInt8) (parent : Nat) (name : List UInt8) (owner : Option Pos)
    (ps : List Nat) : Prop where
  walk : Walk vol v (startCluster vol path) (pathParts path.length path) parent name
  named : name ≠ []
  owns : Owns vol v owner true parent
  links : v.Links vol parent ps

theorem Target.unique (sane : Sane vol) {path name leaf : List UInt8} {parent other : Nat} {owner holder : Option Pos}
    {ps qs : List Nat} (target : Target vol v path parent name owner ps) (again : Target vol v path other leaf holder qs) :
    other = parent ∧ leaf = name ∧ qs = ps := by
  obtain ⟨rfl, rfl⟩ := target.walk.unique sane again.walk
  exact ⟨rfl, rfl, again.links.unique sane.exclusive target.links⟩

theorem Target.path_ne_nil {path name : List UInt8} {parent : Nat} {owner : Option Pos} {ps : List Nat}
    (target : Target vol v path parent name owner ps) : path ≠ [] := by
  rintro rfl
  have walk := target.walk
  cases walk
  exact target.named rfl

/-- A mounted volume without faults on which the current directory is a directory. -/
structure Ready (vol : Volume) (v : View) : Prop where
  mounted : vol.mounted = true
  faultless : Faultless vol
  sane : Sane vol
  formed : Formed vol v
  home : ∃ owner, Owns vol v owner true vol.cwdCluster

theorem Ready.start (ready : Ready vol v) (path : List UInt8) : ∃ owner, Owns vol v owner true (startCluster vol path) := by
  unfold startCluster
  split
  next => exact ⟨none, .root⟩
  next => exact ready.home

def Fuelled (vol : Volume) (fuel : Nat) : Prop := vol.totalClusters + 1 < fuel

section Resolve

variable {β : Type} {post : β → Medium → Prop} {fuel : Nat} (ready : Ready vol (view vol medium.disk))
  (fuelled : enough → Fuelled vol fuel)
include ready fuelled

theorem resolveParent_ends (path : List UInt8) :
    Ends enough (resolveParent vol fuel path) medium fun result final =>
      final.disk = medium.disk ∧ ∀ parent name, result = some (parent, name) ↔
        Walk vol (view vol medium.disk) (startCluster vol path) (pathParts path.length path) parent name :=
  (walkParts_ends ready.faultless ready.sane ready.formed (pathParts path.length path) (ready.start path)).mono
    (fun long => by have bound := fuelled long; unfold Fuelled at bound; omega) fun _ _ walked => walked

theorem resolve_then {path : List UInt8} {refused : β} {rest : Nat → List UInt8 → Io β}
    (refuse : ∀ final : Medium, final.disk = medium.disk →
      (∀ parent name owner ps, ¬Target vol (view vol medium.disk) path parent name owner ps) → post refused final)
    (next : ∀ (final : Medium) (parent : Nat) (name : List UInt8) (owner : Option Pos) (ps : List Nat),
      final.disk = medium.disk → Target vol (view vol medium.disk) path parent name owner ps →
      Ends enough (rest parent name) final post) :
    Ends enough (do
      match ← resolveParent vol fuel path with
      | none => pure refused
      | some (parent, name) => if name = [] then pure refused else rest parent name) medium post := by
  refine (resolveParent_ends ready fuelled path).bind fun result final walked => ?_
  cases result with
  | none =>
    exact Ends.pure (refuse final walked.1 fun _ _ _ _ target => nomatch (walked.2 _ _).mpr target.walk)
  | some found =>
    obtain ⟨parent, name⟩ := found
    have walk := (walked.2 parent name).mp rfl
    refine Ends.branch (fun unnamed => Ends.pure (refuse final walked.1 fun _ _ _ _ target => ?_)) fun named => ?_
    · exact target.named ((walk.unique ready.sane target.walk).2.symm.trans unnamed)
    obtain ⟨owner, owns⟩ := walk.owns (ready.start path)
    obtain ⟨_, ps, links⟩ := ready.formed.dir_links owns
    exact next final parent name owner ps walked.1 ⟨walk, named, owns, links⟩

theorem find_ends {name : List UInt8} {d : Nat} {ds : List Nat}
    (links : (view vol medium.disk).Links vol d ds) :
    Ends enough (dirFind vol fuel d name) medium fun result final =>
      final.disk = medium.disk ∧
        result = ((view vol medium.disk).lookup vol name ds).map (foundOf vol (view vol medium.disk)) :=
  (dirFind_ends ready.faultless ready.sane name links).mono
    (fun long => by
      have bound := fuelled long
      have length := links.length_le ready.sane
      unfold Fuelled at bound
      omega) fun _ _ found => found

end Resolve

def ChainOf (vol : Volume) (v : View) (entry : Mem) (cs : List Nat) : Prop :=
  entryIsDir entry = false ∧ entryCluster entry = 0 ∧ cs = [] ∨ v.Links vol (entryCluster entry) cs

inductive Unlinked (vol : Volume) (v : View) (path : List UInt8) : Bool → View → Prop where
  | refused : Unlinked vol v path false v
  | removed {parent : Nat} {name : List UInt8} {owner : Option Pos} {ps cs : List Nat} {pos : Pos}
      (target : Target vol v path parent name owner ps) (found : v.lookup vol name ps = some pos)
      (chain : ChainOf vol v (v.slot pos) cs)
      (bare : entryIsDir (v.slot pos) = true → ∀ q ∈ v.listing vol cs, ¬Live (v.slot q)) :
      Unlinked vol v path true ((v.freeAll cs).setSlot pos (deletedEntry (v.slot pos)))

def Blocking (entry : Mem) : Prop := entry 0 ≠ 0xE5 ∧ entryDot entry = false

instance (entry : Mem) : Decidable (Blocking entry) := inferInstanceAs (Decidable (_ ∧ _))

theorem Live.blocking {entry : Mem} (live : Live entry) : Blocking entry :=
  ⟨fun deleted => by simp [Live, entryHidden, deleted] at live, live.2⟩

theorem scan_emptyVisit (v : View) (places : List Pos) :
    conclude (fun _ => true) (v.scan emptyVisit vol places ()) = true ↔
      ∀ q ∈ places.takeWhile (fun pos => v.slot pos 0 != 0), ¬Blocking (v.slot q) := by
  induction places with
  | nil => exact iff_of_true rfl fun _ member => nomatch member
  | cons pos rest ih =>
    simp only [View.scan, List.foldlM_cons] at ih ⊢
    by_cases unused : v.slot pos 0 = 0
    · simp [unused, emptyVisit, conclude, bind, Except.bind]
    rw [List.takeWhile_cons_of_pos (by simpa using unused), List.forall_mem_cons]
    by_cases blocking : Blocking (v.slot pos)
    · refine iff_of_false (fun empty => ?_) fun all => all.1 blocking
      simp [emptyVisit, unused, blocking.1, blocking.2, bind, Except.bind, conclude] at empty
    · rw [and_iff_right blocking, ← ih]
      by_cases deleted : v.slot pos 0 = 0xE5
      · simp [emptyVisit, deleted, bind, Except.bind]
      · have dot : entryDot (v.slot pos) = true := by
          rw [← Bool.not_eq_false]
          exact fun plain => blocking ⟨deleted, plain⟩
        simp [emptyVisit, unused, deleted, dot, bind, Except.bind]

section Operations

variable {fuel : Nat} (ready : Ready vol (view vol medium.disk))
include ready

variable {d : Nat} {ds : List Nat} {pos : Pos} {cs : List Nat}

theorem chainOf_found {owner : Option Pos} {name : List UInt8} (owns : Owns vol (view vol medium.disk) owner true d)
    (links : (view vol medium.disk).Links vol d ds) (found : (view vol medium.disk).lookup vol name ds = some pos) :
    ∃ cs, ChainOf vol (view vol medium.disk) ((view vol medium.disk).slot pos) cs := by
  rcases ready.formed.chained (owns.found links found) with ⟨file, zero⟩ | ⟨_, cs, chain⟩
  · exact ⟨[], .inl ⟨file, zero, rfl⟩⟩
  · exact ⟨cs, .inr chain⟩

theorem freeEntry_ends (fuelled : enough → Fuelled vol fuel) {entry : Mem}
    (chain : ChainOf vol (view vol medium.disk) entry cs) :
    Ends enough (if 2 ≤ entryCluster entry then fatFreeChain vol fuel (entryCluster entry) else pure true) medium
      fun _ final => view vol final.disk = (view vol medium.disk).freeAll cs := by
  rcases chain with ⟨_, zero, rfl⟩ | links
  · simp only [zero, show ¬2 ≤ 0 by omega, if_false]
    exact Ends.pure (by simp [View.freeAll])
  · refine Ends.branch (fun _ => ?_) fun low => ?_
    · have length := links.length_le ready.sane
      refine (fatFreeChain_ends ready.faultless ready.sane links).mono (fun long => ?_) fun _ _ freed => freed.2
      have bound := fuelled long
      unfold Fuelled at bound
      omega
    · cases links with
      | done ends => exact absurd ends (by unfold IsEnd; omega)
      | link inside _ => exact absurd inside.1 low

omit ready in
theorem place_of_mem (links : v.Links vol d ds) (member : pos ∈ slots vol ds) :
    Inside vol pos.cluster ∧ pos.sector < vol.secPerCluster := by
  obtain ⟨inside, small, _⟩ := mem_slots.mp member
  exact ⟨links.inside_of_mem inside, small⟩

theorem dirEmpty_ends (fuelled : enough → Fuelled vol fuel) {entry : Mem}
    (chain : ChainOf vol (view vol medium.disk) entry cs) :
    Ends enough (if entryIsDir entry = true then dirEmpty vol fuel (entryCluster entry) else pure true) medium
      fun removable final => final.disk = medium.disk ∧ (entryIsDir entry = true → (removable = true ↔
        ∀ q ∈ (view vol medium.disk).listing vol cs, ¬Blocking ((view vol medium.disk).slot q))) := by
  refine Ends.branch (fun isDir => ?_) fun isFile => Ends.pure ⟨rfl, fun isDir => absurd isDir isFile⟩
  rcases chain with ⟨isFile, _⟩ | links
  · rw [isFile] at isDir
    cases isDir
  · have length := links.length_le ready.sane
    refine (scanChain_ends emptyVisit ready.faultless ready.sane (fun _ => false) (fun _ => true) links ()).mono
      (fun long => ?_) fun removable final scanned => ⟨scanned.1, fun _ => ?_⟩
    · have bound := fuelled long
      unfold Fuelled at bound
      omega
    · rw [scanned.2]
      exact scan_emptyVisit (view vol medium.disk) (slots vol cs)

theorem fatUnlink_ends (path : List UInt8) :
    Ends (Fuelled vol fuel) (fatUnlink vol fuel path) medium fun ok final =>
      Unlinked vol (view vol medium.disk) path ok (view vol final.disk) := by
  unfold fatUnlink
  refine Ends.branch (fun _ => ?_) fun _ => Ends.pure .refused
  refine resolve_then ready id (fun final same _ => same ▸ .refused) fun middle parent name owner ps same target => ?_
  rw [← same] at ready target ⊢
  refine (find_ends ready id target.links).bind fun result current ⟨kept, found⟩ => ?_
  rw [← kept] at ready target found ⊢
  rw [found]
  cases search : (view vol current.disk).lookup vol name ps with
  | none => exact Ends.pure .refused
  | some pos =>
    obtain ⟨cs, chain⟩ := chainOf_found ready target.owns target.links search
    refine (dirEmpty_ends ready id chain).bind fun removable tested ⟨still, test⟩ => ?_
    rw [← still] at ready target search chain test ⊢
    refine Ends.branch (fun removes => ?_) fun _ => Ends.pure ?_
    · refine (freeEntry_ends ready id chain).bind fun _ freed free => ?_
      have place := place_of_mem target.links (View.mem_slots_of_listing (lookup_some search).1)
      refine (deleteEntry_ends ready.faultless ready.sane place.1 place.2).imp fun ok final deleted => ?_
      rw [deleted.1, deleted.2, free]
      exact .removed target search chain fun isDir q listed live => (test isDir).mp removes q listed live.blocking
    · exact .refused

/-- The slot of the entry, and the view when the content begins to be written. -/
inductive Prepared (vol : Volume) (v : View) (name : List UInt8) (ps : List Nat) : Pos → View → Prop where
  | existing {pos : Pos} {cs : List Nat} (found : v.lookup vol name ps = some pos)
      (isFile : entryIsDir (v.slot pos) = false) (chain : ChainOf vol v (v.slot pos) cs) :
      Prepared vol v name ps pos (v.freeAll cs)
  | vacant {pos : Pos} {u : View} (missing : v.lookup vol name ps = none) (slot : SlotFound vol v ps (some pos) u) :
      Prepared vol v name ps pos u

def Content (vol : Volume) (u w : View) (first : Nat) (cs : List Nat) (data : List UInt8) : Prop :=
  data = [] ∧ first = 0 ∧ cs = [] ∧ w = u ∨ Filled vol u w cs data ∧ w.Links vol first cs ∧ Inside vol first

inductive Wrote (vol : Volume) (v : View) (path data : List UInt8) : Option Nat → View → Prop where
  | refused (reason : data.length ≤ 512 * 64 → ∀ {parent name owner ps}, Target vol v path parent name owner ps →
      v.lookup vol name ps = none → (slots vol ps).find? v.isFree = none ∧ v.freeCount vol = 0)
      (occupied : data.length ≤ 512 * 64 → ∀ {parent name owner ps pos}, Target vol v path parent name owner ps →
        v.lookup vol name ps = some pos → entryIsDir (v.slot pos) = true) :
      Wrote vol v path data none v
  | short {parent : Nat} {name : List UInt8} {owner : Option Pos} {ps : List Nat} {pos : Pos} {u w : View}
      (target : Target vol v path parent name owner ps) (prepared : Prepared vol v name ps pos u)
      (few : u.freeCount vol * (512 * vol.secPerCluster) < data.length) (untouched : u.freeCount vol = 0 → w = u)
      (spent : w.freeCount vol = 0) (shrinks : ∀ c, w.fat c = 0 → u.fat c = 0)
      (spares : ∀ c, u.fat c ≠ 0 → w.fat c = u.fat c ∧ w.data c = u.data c) : Wrote vol v path data none w
  | written {parent first : Nat} {name : List UInt8} {owner : Option Pos} {ps cs : List Nat} {pos : Pos} {u w : View}
      (target : Target vol v path parent name owner ps) (prepared : Prepared vol v name ps pos u)
      (content : Content vol u w first cs data) :
      Wrote vol v path data (some data.length) (w.setSlot pos (newEntry name 0x20 first data.length))

omit ready in
theorem SlotFound.place (sane : Sane vol) {u : View} (slot : SlotFound vol v ds (some pos) u)
    (links : v.Links vol d ds) : Inside vol pos.cluster ∧ pos.sector < vol.secPerCluster := by
  cases slot with
  | within found => exact place_of_mem links (List.mem_of_find?_eq_some found)
  | grown _ _ candidate _ => exact ⟨inside_of_candidate candidate, sane.hasSectors⟩

omit ready in
theorem writeContent_ends (faultless : Faultless vol) (sane : Sane vol) (name data : List UInt8)
    (place : Inside vol pos.cluster ∧ pos.sector < vol.secPerCluster) :
    Ends (data.length ≤ fuel) (writeContent vol fuel (slotOf vol pos) name data) medium fun result final =>
      result = none ∧ Stored vol (view vol medium.disk) (view vol final.disk) 0 0 data none ∨
        ∃ w first cs, Content vol (view vol medium.disk) w first cs data ∧ result = some data.length ∧
          view vol final.disk = w.setSlot pos (newEntry name 0x20 first data.length) := by
  unfold writeContent
  have stored : Ends (data.length ≤ fuel) (if data = [] then pure (some 0) else writeClusters vol fuel 0 0 data) medium
      fun result final =>
        result = none ∧ Stored vol (view vol medium.disk) (view vol final.disk) 0 0 data none ∨
          ∃ first cs, Content vol (view vol medium.disk) (view vol final.disk) first cs data ∧ result = some first := by
    refine Ends.branch (fun empty => Ends.pure (.inr ⟨0, [], .inl ⟨empty, rfl, rfl, rfl⟩, rfl⟩)) fun nonempty => ?_
    refine (writeClusters_ends faultless sane nonempty (fun some => absurd rfl some) fun some => absurd rfl some).imp
      fun result final stored => ?_
    generalize view vol final.disk = w at stored ⊢
    cases stored with
    | short few untouched spent shrinks spares => exact .inl ⟨rfl, .short few untouched spent shrinks spares⟩
    | complete filled links =>
      exact .inr ⟨_, _, .inr ⟨filled, links, links.inside_of_mem List.mem_cons_self⟩, rfl⟩
  refine stored.bind fun result middle outcome => ?_
  rcases outcome with ⟨rfl, short⟩ | ⟨first, cs, content, rfl⟩
  · exact Ends.pure (.inl ⟨rfl, short⟩)
  · refine (writeEntry_ends faultless sane place.1 place.2 name 0x20 first data.length).bind fun ok final put => ?_
    simp only [put.1, if_true]
    exact Ends.pure (.inr ⟨_, first, cs, content, rfl, put.2⟩)

theorem fatWriteFile_ends (path data : List UInt8) :
    Ends (Fuelled vol fuel ∧ data.length ≤ fuel) (fatWriteFile vol fuel path data) medium fun result final =>
      Wrote vol (view vol medium.disk) path data result (view vol final.disk) := by
  unfold fatWriteFile
  refine Ends.branch (fun _ => ?_) fun refused => Ends.pure (.refused
    (fun small _ _ _ _ target _ => absurd ⟨ready.mounted, target.path_ne_nil, small⟩ refused)
    fun small _ _ _ _ _ target _ => absurd ⟨ready.mounted, target.path_ne_nil, small⟩ refused)
  refine resolve_then ready And.left (fun final same none => by
      rw [same]
      exact .refused (fun _ _ _ _ _ target => absurd target (none _ _ _ _))
        fun _ _ _ _ _ _ target => absurd target (none _ _ _ _))
    fun middle parent name owner ps same target => ?_
  rw [← same] at ready target ⊢
  refine (find_ends ready And.left target.links).bind fun result current ⟨kept, found⟩ => ?_
  rw [← kept] at ready target found ⊢
  rw [found]
  -- Once the slot is known, the rest is the same for old and new files.
  have finish : ∀ {pos : Pos} {ready : Medium}, Inside vol pos.cluster ∧ pos.sector < vol.secPerCluster →
      Prepared vol (view vol current.disk) name ps pos (view vol ready.disk) →
      Ends (Fuelled vol fuel ∧ data.length ≤ fuel) (writeContent vol fuel (slotOf vol pos) name data) ready
        fun result final => Wrote vol (view vol current.disk) path data result (view vol final.disk) := by
    intro pos prepared place preparation
    refine (writeContent_ends ready.faultless ready.sane name data place).mono And.right fun result final outcome => ?_
    rcases outcome with ⟨rfl, short⟩ | ⟨w, first, cs, content, rfl, put⟩
    · cases short with
      | short few untouched spent shrinks spares =>
        exact .short target preparation few untouched spent shrinks fun c used => spares c used fun some => absurd rfl some
    · rw [put]
      exact .written target preparation content
  cases search : (view vol current.disk).lookup vol name ps with
  | some pos =>
    obtain ⟨cs, chain⟩ := chainOf_found ready target.owns target.links search
    refine Ends.branch (fun isDir => Ends.pure (.refused (fun _ _ _ _ _ again missing => ?_)
      fun _ _ _ _ _ _ again holds => ?_)) fun isFile => ?_
    · obtain ⟨rfl, rfl, rfl⟩ := target.unique ready.sane again
      rw [search] at missing
      cases missing
    · obtain ⟨rfl, rfl, rfl⟩ := target.unique ready.sane again
      rw [search] at holds
      cases holds
      exact isDir
    refine (freeEntry_ends ready And.left chain).bind fun _ freed free => ?_
    have place := place_of_mem target.links (View.mem_slots_of_listing (lookup_some search).1)
    exact finish place (free ▸ .existing search (Bool.not_eq_true _ ▸ isFile) chain)
  | none =>
    have length := target.links.length_le ready.sane
    have nonempty := target.links.ne_nil ready.sane.exclusive (ready.formed.dir_links target.owns).1
    refine ((dirAllocSlot_ends ready.faultless ready.sane target.links nonempty).mono (fun long => ?_)
      fun _ _ outcome => outcome).bind fun result slotted ⟨slot, named, outcome⟩ => ?_
    · have bound : vol.totalClusters + 1 < fuel := long.1
      omega
    rw [named]
    cases slot with
    | none =>
      refine Ends.pure ?_
      generalize view vol slotted.disk = w at outcome ⊢
      cases outcome with
      | full noFree exhausted =>
        refine .refused (fun _ _ _ _ _ again _ => ?_) fun _ _ _ _ _ _ again holds => ?_
        · obtain ⟨rfl, rfl, rfl⟩ := target.unique ready.sane again
          exact ⟨noFree, View.freeCount_eq_zero.mpr exhausted⟩
        · obtain ⟨rfl, rfl, rfl⟩ := target.unique ready.sane again
          rw [search] at holds
          cases holds
    | some pos => exact finish (outcome.place ready.sane target.links) (.vacant search outcome)

def View.setDirectory (v : View) (nc parent : Nat) : View :=
  { v with data := fun c s => if c = nc then (if s = 0 then dotSector nc parent else blank) else v.data c s }

/-- A free cluster turned into a directory that no entry names yet. -/
def View.addDirectory (v : View) (nc parent : Nat) : View := (v.setFat nc 0x0FFFFFFF).setDirectory nc parent

inductive Made (vol : Volume) (v : View) (path : List UInt8) : Bool → View → Prop where
  | refused (reason : ∀ {parent name owner ps}, Target vol v path parent name owner ps →
      v.lookup vol name ps = none → v.freeCount vol = 0) : Made vol v path false v
  | stranded {parent nc : Nat} {name : List UInt8} {owner : Option Pos} {ps : List Nat}
      (target : Target vol v path parent name owner ps) (missing : v.lookup vol name ps = none)
      (candidate : nc ∈ candidates vol) (free : v.fat nc = 0)
      (slot : SlotFound vol (v.addDirectory nc parent) ps none (v.addDirectory nc parent)) :
      Made vol v path false (v.addDirectory nc parent)
  | made {parent nc : Nat} {name : List UInt8} {owner : Option Pos} {ps : List Nat} {pos : Pos} {w : View}
      (target : Target vol v path parent name owner ps) (missing : v.lookup vol name ps = none)
      (candidate : nc ∈ candidates vol) (free : v.fat nc = 0)
      (slot : SlotFound vol (v.addDirectory nc parent) ps (some pos) w) :
      Made vol v path true (w.setSlot pos (newEntry name 0x10 nc 0))

omit ready in
theorem clusterToLba_eq (sane : Sane vol) {c : Nat} (inside : Inside vol c) : clusterToLba vol c = sectorLba vol c 0 := by
  rw [← sane.lba_eq inside sane.hasSectors]
  simp [clusterToLba, u32]

omit ready in
theorem writeDirectory_ends (faultless : Faultless vol) (sane : Sane vol) {nc : Nat} (inside : Inside vol nc)
    (parent : Nat) :
    Ends enough (writeDirectory vol nc parent) medium fun ok final =>
      ok = true ∧ view vol final.disk = (view vol medium.disk).setDirectory nc parent := by
  unfold writeDirectory
  refine Ends.modify_then ?_
  rw [clusterToLba_eq sane inside]
  refine (writeAbs_ends faultless _).bind fun ok middle written => ?_
  simp only [written.1, if_true]
  refine Ends.modify_then ?_
  refine (writeEach_ends faultless sane inside (List.range' 1 (vol.secPerCluster - 1)) fun s member => ?_).imp
    fun ok final wrote => ⟨wrote.1, ?_⟩
  · have bounds := List.mem_range'_1.mp member
    omega
  · rw [wrote.2, written.2.1, view_store_sector sane _ _ inside sane.hasSectors]
    ext1
    · rfl
    · funext c s
      simp only [View.setSectors, View.setSector, View.setDirectory, List.mem_range'_1]
      by_cases here : c = nc
      · subst here
        by_cases first : s = 0
        · subst first
          simp
        · by_cases below : s < vol.secPerCluster
          · have later : 1 ≤ s ∧ s < 1 + (vol.secPerCluster - 1) := by omega
            simp [first, later, show 1 < vol.secPerCluster by omega]
          · have outside : ¬s < 1 + (vol.secPerCluster - 1) := by omega
            simp only [first, outside, and_false, if_false, if_true, view, below]
            rfl
      · simp [here]

omit ready in
theorem links_addDirectory {start nc parent : Nat} (links : v.Links vol start cs) (free : v.fat nc = 0) :
    (v.addDirectory nc parent).Links vol start cs :=
  links.congr fun c member => by
    have differ : c ≠ nc := fun same => links.fat_ne_zero member (same ▸ free)
    simp [View.addDirectory, View.setDirectory, View.setFat, differ]

theorem fatMkdir_ends (path : List UInt8) :
    Ends (Fuelled vol fuel) (fatMkdir vol fuel path) medium fun ok final =>
      Made vol (view vol medium.disk) path ok (view vol final.disk) := by
  unfold fatMkdir
  refine Ends.branch (fun _ => ?_) fun refused => Ends.pure (.refused fun {_ _ _ _} target _ =>
    absurd ⟨ready.mounted, target.path_ne_nil⟩ refused)
  refine resolve_then ready id
    (fun final same none => by rw [same]; exact .refused fun {_ _ _ _} target => absurd target (none _ _ _ _))
    fun middle parent name owner ps same target => ?_
  rw [← same] at ready target ⊢
  refine (find_ends ready id target.links).bind fun result current ⟨kept, found⟩ => ?_
  rw [← kept] at ready target found ⊢
  rw [found]
  cases search : (view vol current.disk).lookup vol name ps with
  | some pos =>
    refine Ends.pure (.refused fun {_ _ _ _} again missing => ?_)
    obtain ⟨rfl, rfl, rfl⟩ := target.unique ready.sane again
    rw [search] at missing
    cases missing
  | none =>
    refine (fatAllocCluster_ends ready.faultless ready.sane).bind fun nc marked outcome => ?_
    rcases outcome with ⟨zero, unchanged, exhausted⟩ | ⟨candidate, free, taken⟩
    · simp only [zero, if_true]
      exact Ends.pure (by rw [unchanged]; exact .refused fun _ _ => View.freeCount_eq_zero.mpr exhausted)
    have inside := inside_of_candidate candidate
    have nonzero : nc ≠ 0 := by
      have low := inside.1
      omega
    simp only [nonzero, if_false]
    refine (writeDirectory_ends ready.faultless ready.sane inside parent).bind fun ok drawn wrote => ?_
    simp only [wrote.1, if_true]
    have stage : view vol drawn.disk = (view vol current.disk).addDirectory nc parent := by
      rw [wrote.2, taken]
      rfl
    have links : (view vol drawn.disk).Links vol parent ps := by
      rw [stage]
      exact links_addDirectory target.links free
    have length := links.length_le ready.sane
    have nonempty := links.ne_nil ready.sane.exclusive (ready.formed.dir_links target.owns).1
    refine ((dirAllocSlot_ends ready.faultless ready.sane links nonempty).mono (fun long => ?_)
      fun _ _ outcome => outcome).bind fun result slotted ⟨slot, named, outcome⟩ => ?_
    · have bound : vol.totalClusters + 1 < fuel := long
      omega
    rw [named]
    cases slot with
    | none =>
      refine Ends.pure ?_
      have same : view vol slotted.disk = view vol drawn.disk := by
        generalize view vol slotted.disk = w at outcome ⊢
        cases outcome
        rfl
      rw [same, stage] at outcome ⊢
      exact .stranded target search candidate free outcome
    | some pos =>
      have place := outcome.place ready.sane links
      refine (writeEntry_ends ready.faultless ready.sane place.1 place.2 name 0x10 nc 0).imp fun ok final put => ?_
      rw [put.1, put.2]
      exact .made target search candidate free (stage ▸ outcome)

def BarePath (path : List UInt8) : Prop := path = [] ∨ path = [0x2F] ∨ path = [0x5C]

/-- `Resolves vol v path (cl, size, isDir)`: what `resolve_full` finds. -/
inductive Resolves (vol : Volume) (v : View) (path : List UInt8) : Nat × Nat × Bool → Prop where
  | start (bare : BarePath path) : Resolves vol v path (startCluster vol path, 0, true)
  | parent {parent : Nat} (long : ¬BarePath path)
      (walk : Walk vol v (startCluster vol path) (pathParts path.length path) parent []) :
      Resolves vol v path (parent, 0, true)
  | entry {parent : Nat} {name : List UInt8} {owner : Option Pos} {ps : List Nat} {pos : Pos} (long : ¬BarePath path)
      (target : Target vol v path parent name owner ps) (found : v.lookup vol name ps = some pos) :
      Resolves vol v path (entryCluster (v.slot pos), entrySize (v.slot pos), entryIsDir (v.slot pos))

omit ready in
theorem Walk.long {path name : List UInt8} {start parent : Nat}
    (walk : Walk vol v start (pathParts path.length path) parent name) (named : name ≠ []) : ¬BarePath path := by
  intro bare
  have none : pathParts path.length path = [] := by
    rcases bare with rfl | rfl | rfl <;> rfl
  rw [none] at walk
  cases walk
  exact named rfl

omit ready in
theorem Resolves.owns {path : List UInt8} {cl size : Nat} (resolves : Resolves vol v path (cl, size, true))
    (begins : ∃ owner, Owns vol v owner true (startCluster vol path)) : ∃ owner, Owns vol v owner true cl := by
  generalize result : (cl, size, true) = found at resolves
  cases resolves with
  | start _ =>
    cases result
    exact begins
  | parent _ walk =>
    cases result
    exact walk.owns begins
  | entry _ target found =>
    have child := target.owns.found target.links found
    obtain ⟨rfl, rfl, isDir⟩ := Prod.mk.inj result |>.imp id Prod.mk.inj
    rw [← isDir] at child
    exact ⟨_, child⟩

theorem resolveFull_ends (path : List UInt8) :
    Ends (Fuelled vol fuel) (resolveFull vol fuel path) medium fun result final =>
      final.disk = medium.disk ∧ ∀ found, result = some found ↔ Resolves vol (view vol medium.disk) path found := by
  unfold resolveFull
  refine Ends.branch (fun bare => Ends.pure ⟨rfl, fun found => ?_⟩) fun long => ?_
  · constructor
    · intro same
      cases same
      exact .start bare
    · intro resolves
      cases resolves with
      | start _ => rfl
      | parent long _ => exact absurd bare long
      | entry long _ _ => exact absurd bare long
  refine (resolveParent_ends ready id path).bind fun result middle ⟨same, walked⟩ => ?_
  rw [← same] at ready walked ⊢
  cases result with
  | none =>
    refine Ends.pure ⟨rfl, fun found => ⟨fun none => (nomatch none), fun resolves => ?_⟩⟩
    cases resolves with
    | start bare => exact absurd bare long
    | parent _ walk => exact nomatch (walked _ _).mpr walk
    | entry _ target _ => exact nomatch (walked _ _).mpr target.walk
  | some leaf =>
    obtain ⟨parent, name⟩ := leaf
    have walk := (walked parent name).mp rfl
    refine Ends.branch (fun unnamed => ?_) fun named => ?_
    · subst unnamed
      refine Ends.pure ⟨rfl, fun found => ⟨fun same => ?_, fun resolves => ?_⟩⟩
      · cases same
        exact .parent long walk
      · cases resolves with
        | start bare => exact absurd bare long
        | parent _ again =>
          have equal := (walked _ _).mpr again
          cases equal
          rfl
        | entry _ target _ =>
          have equal := (walked _ _).mpr target.walk
          cases equal
          exact absurd rfl target.named
    · obtain ⟨owner, owns⟩ := walk.owns (ready.start path)
      obtain ⟨_, ps, links⟩ := ready.formed.dir_links owns
      have target : Target vol (view vol middle.disk) path parent name owner ps := ⟨walk, named, owns, links⟩
      refine (find_ends ready id links).bind fun result current ⟨kept, looked⟩ => ?_
      -- Every resolution looks the same name up in the same directory.
      have only : ∀ {found}, Resolves vol (view vol middle.disk) path found →
          ∃ pos, (view vol middle.disk).lookup vol name ps = some pos ∧
            found = (entryCluster ((view vol middle.disk).slot pos), entrySize ((view vol middle.disk).slot pos),
              entryIsDir ((view vol middle.disk).slot pos)) := by
        intro found resolves
        cases resolves with
        | start bare => exact absurd bare long
        | parent _ again =>
          have equal := (walked _ _).mpr again
          cases equal
          exact absurd rfl named
        | entry _ again found =>
          have equal := (walked _ _).mpr again.walk
          cases equal
          rw [again.links.unique ready.sane.exclusive links] at found
          exact ⟨_, found, rfl⟩
      rw [looked]
      cases search : (view vol middle.disk).lookup vol name ps with
      | none =>
        refine Ends.pure ⟨kept, fun found => ⟨fun none => (nomatch none), fun resolves => ?_⟩⟩
        obtain ⟨pos, there, _⟩ := only resolves
        rw [search] at there
        cases there
      | some pos =>
        refine Ends.pure ⟨kept, fun found => ⟨fun same => ?_, fun resolves => ?_⟩⟩
        · cases same
          exact .entry long target search
        · obtain ⟨again, there, rfl⟩ := only resolves
          rw [search] at there
          cases there
          rfl

end Operations
end GWKernel.Fat
