import GWKernel.Proofs.FatConsistency

/-! What a successful write leaves: the path names a file that holds the data, and the other files keep
theirs, given disjoint chains and unique names. -/

namespace GWKernel.Fat
open Lib List

variable {vol : Volume} {v w : View} {medium : Medium} {fuel : Nat}

/-- The file that a path names: the slot of its entry, and its clusters. -/
structure FileAt (vol : Volume) (v : View) (path : List UInt8) (pos : Pos) (cs : List Nat) : Prop where
  found : ∃ parent name ps, Walk vol v (startCluster vol path) (pathParts path.length path) parent name ∧ name ≠ [] ∧
    v.Links vol parent ps ∧ v.lookup vol name ps = some pos
  isFile : entryIsDir (v.slot pos) = false
  chain : ChainOf vol v (v.slot pos) cs

section Read

variable (faultless : Faultless vol) (sane : Sane vol)
include faultless sane

theorem walkParts_follows {start parent : Nat} {parts : List (List UInt8)} {name : List UInt8}
    (walk : Walk vol v start parts parent name) (seen : view vol medium.disk = v) :
    Ends (Fuelled vol fuel) (walkParts vol fuel start parts) medium fun result final =>
      view vol final.disk = v ∧ result = some (parent, name) := by
  induction walk generalizing medium with
  | done => exact Ends.pure ⟨seen, rfl⟩
  | last => exact Ends.pure ⟨seen, rfl⟩
  | stay _ ih =>
    unfold walkParts
    exact Ends.branch (fun _ => ih seen) fun other => absurd rfl other
  | top _ ih =>
    unfold walkParts
    exact Ends.branch (fun dot => by cases dot) fun _ => Ends.branch (fun _ => ih seen) fun other => absurd rfl other
  | down notDot notUp links found isDir _ ih =>
    subst seen
    unfold walkParts
    refine Ends.branch (fun dot => absurd dot notDot) fun _ => Ends.branch (fun up => absurd up notUp) fun _ => ?_
    have length := links.length_le sane
    refine ((dirFind_ends faultless sane _ links).mono (fun long => ?_) fun _ _ outcome => outcome).bind
      fun result middle told => ?_
    · unfold Fuelled at long
      omega
    · obtain ⟨same, looked⟩ := told
      rw [looked, found]
      exact Ends.branch (fun _ => ih (by rw [same])) fun other => absurd isDir other

theorem resolveFull_follows {path : List UInt8} {pos : Pos} {cs : List Nat} (file : FileAt vol v path pos cs)
    (seen : view vol medium.disk = v) :
    Ends (Fuelled vol fuel) (resolveFull vol fuel path) medium fun result final =>
      view vol final.disk = v ∧ result = some (entryCluster (v.slot pos), entrySize (v.slot pos), false) := by
  obtain ⟨parent, name, ps, walk, named, links, found⟩ := file.found
  have long := walk.long named
  have length := links.length_le sane
  unfold resolveFull resolveParent
  refine Ends.branch (fun bare => absurd bare long) fun _ => ?_
  refine (walkParts_follows faultless sane walk seen).bind fun result middle ⟨same, followed⟩ => ?_
  subst same
  rw [followed]
  simp only [named, if_false]
  refine ((dirFind_ends faultless sane _ links).mono (fun long => ?_) fun _ _ outcome => outcome).bind
    fun result final ⟨same, looked⟩ => ?_
  · unfold Fuelled at long
    omega
  · rw [looked, found]
    refine Ends.pure ⟨by rw [same], ?_⟩
    simp only [foundOf, foundAt, file.isFile]

theorem fatReadFile_follows (mounted : vol.mounted = true) {path : List UInt8} {pos : Pos} {cs : List Nat}
    (file : FileAt vol v path pos cs) (seen : view vol medium.disk = v) (maxlen : Nat) :
    Ends (Fuelled vol fuel) (fatReadFile vol fuel path maxlen) medium fun result _ =>
      result = some ((v.bytes vol cs).take (min (entrySize (v.slot pos)) maxlen)) := by
  unfold fatReadFile
  refine Ends.branch (fun _ => ?_) fun other => absurd mounted other
  refine (resolveFull_follows faultless sane file seen).bind fun result middle ⟨same, resolved⟩ => ?_
  subst same
  rw [resolved]
  rcases file.chain with ⟨_, zero, rfl⟩ | chain
  · rw [zero]
    cases fuel with
    | zero => exact Ends.exhausted (Nat.not_lt_zero _)
    | succ fuel =>
      unfold readClusters
      simp only [show ¬InChain 0 by decide, false_and, if_false]
      exact Ends.pure (by simp [View.bytes])
  · have length := chain.length_le sane
    refine (readClusters_ends faultless sane chain _).mono (fun long => ?_) fun _ _ outcome => outcome.2
    unfold Fuelled at long
    omega

end Read

def FindsDirectories (vol : Volume) (v w : View) : Prop :=
  ∀ {owner d ds name pos}, Owns vol v owner true d → v.Links vol d ds → v.lookup vol name ds = some pos →
    entryIsDir (v.slot pos) = true →
      ∃ es, w.Links vol d es ∧ w.lookup vol name es = some pos ∧ w.slot pos = v.slot pos

theorem FindsDirectories.walk (kept : FindsDirectories vol v w) {start parent : Nat} {parts : List (List UInt8)}
    {name : List UInt8} (walk : Walk vol v start parts parent name) (begins : ∃ owner, Owns vol v owner true start) :
    Walk vol w start parts parent name := by
  induction walk with
  | done => exact .done
  | last => exact .last
  | stay _ ih => exact .stay (ih begins)
  | top _ ih => exact .top (ih ⟨none, .root⟩)
  | down notDot notUp links found isDir _ ih =>
    obtain ⟨owner, owns⟩ := begins
    have child := owns.found links found
    rw [isDir] at child
    obtain ⟨es, relinks, refound, same⟩ := kept owns links found isDir
    have tail := ih ⟨_, child⟩
    rw [← same] at isDir tail
    exact .down notDot notUp relinks refound isDir tail

section Frame

variable {path name : List UInt8} {parent : Nat} {owner : Option Pos} {ps : List Nat} {pos : Pos} {u : View}
  (sane : Sane vol) (formed : Formed vol v) (target : Target vol v path parent name owner ps)
  (prepared : Prepared vol v name ps pos u)
include sane formed target prepared

variable {other : Option Pos} {isDir : Bool} {start d : Nat}

theorem Prepared.chain {cs : List Nat} (owns : Owns vol v other isDir start) (away : other ≠ some pos)
    (links : v.Links vol start cs) :
    ∃ es, u.Links vol start (cs ++ es) ∧ (∀ c ∈ cs, u.data c = v.data c) ∧ (isDir = false → es = []) := by
  cases prepared with
  | @existing ds found isFile chain =>
    obtain ⟨listed, live, _⟩ := lookup_some found
    have entry := Owns.entry target.owns target.links listed live
    refine ⟨[], ?_, fun _ _ => rfl, fun _ => rfl⟩
    rw [append_nil]
    refine links.congr fun c member => ?_
    have kept : c ∉ ds := by
      rcases chain with ⟨_, _, rfl⟩ | chain
      · exact not_mem_nil
      · exact formed.apart owns entry links chain away c member
    simp [View.freeAll, kept]
  | vacant missing slot =>
    cases slot with
    | within _ => exact ⟨[], by rwa [append_nil], fun _ _ => rfl, fun _ => rfl⟩
    | @grown before last nc noFree chain candidate free =>
      subst chain
      have growing : Growing vol v owner parent before last nc :=
        ⟨target.owns, target.links, slots_used noFree, inside_of_candidate candidate, free⟩
      have sectors : ∀ c ∈ cs, (v.grow last nc).data c = v.data c := fun c member => by
        simp [View.grow, growing.ne_of_mem links member]
      obtain ⟨relinks, _⟩ := growing.carry sane formed owns links
      by_cases same : other = owner
      · subst same
        refine ⟨[nc], by simpa [growChain] using relinks, sectors, fun isFile => ?_⟩
        exact absurd (owns.isDir_eq target.owns) (by simp [isFile])
      · exact ⟨[], by simpa [growChain, same] using relinks, sectors, fun _ => rfl⟩

omit formed in
theorem Prepared.site {es : List Nat} (relinks : u.Links vol parent (ps ++ es)) :
    ∃ before after, slots vol (ps ++ es) = before ++ pos :: after ∧
      ∀ q ∈ before, q ∈ slots vol ps ∧ v.slot q 0 ≠ 0 ∧ ¬v.Matches name q := by
  -- A slot of the directory with nothing but used ones before it is listed, so it has another name.
  have other : ∀ {before after : List Pos}, v.lookup vol name ps = none → slots vol ps = before ++ after →
      (∀ q ∈ before, v.slot q 0 ≠ 0) → ∀ q ∈ before, q ∈ slots vol ps ∧ v.slot q 0 ≠ 0 ∧ ¬v.Matches name q := by
    intro before after missing split used q member
    obtain ⟨front, back, rfl⟩ := append_of_mem member
    have listed : q ∈ v.listing vol ps := View.mem_listing.mpr ⟨front, back ++ after, by simpa using split, used q member,
      fun p earlier => used p (by simp [earlier])⟩
    exact ⟨View.mem_slots_of_listing listed, used q member, fun matched =>
      lookup_none missing listed matched.1 matched.2.symm⟩
  cases prepared with
  | existing found _ _ =>
    obtain ⟨before, after, split, _, _, earlier⟩ := lookup_eq_some.mp found
    refine ⟨before, after ++ slots vol es, by simp [slots_append, split], fun q member => ⟨?_, earlier q member⟩⟩
    simp [split, member]
  | vacant missing slot =>
    cases slot with
    | within found =>
      obtain ⟨before, after, split, used⟩ := (vacant_of_find found).place
      exact ⟨before, after ++ slots vol es, by simp [slots_append, split], other missing split used⟩
    | @grown front last nc noFree chain candidate free =>
      subst chain
      have used := slots_used noFree
      have growing : Growing vol v owner parent front last nc :=
        ⟨target.owns, target.links, used, inside_of_candidate candidate, free⟩
      obtain ⟨rest, head⟩ := clusterSlots_head sane nc
      refine ⟨slots vol (front ++ [last]), rest, ?_, other missing (append_nil _).symm used⟩
      rw [relinks.unique sane.exclusive (growing.links_grown sane), slots_append]
      simp [slots, head]

omit sane formed target in
theorem Prepared.place : pos ∈ slots vol ps ∨ v.fat pos.cluster = 0 := by
  cases prepared with
  | existing found _ _ => exact .inl (View.mem_slots_of_listing (lookup_some found).1)
  | vacant _ slot =>
    cases slot with
    | within found => exact .inl (mem_of_find?_eq_some found)
    | grown _ _ _ free => exact .inr free

theorem Prepared.only {ds : List Nat} {q : Pos} (owns : Owns vol v other true d) (links : v.Links vol d ds)
    (here : pos ∈ slots vol ds) (listed : q ∈ v.listing vol ds) (matched : v.Matches name q) : q = pos := by
  have inside := (mem_slots.mp here).1
  rcases prepared.place with member | free
  · obtain rfl := formed.same_owner owns target.owns links target.links inside (mem_slots.mp member).1
    obtain rfl := owns.start_eq target.owns
    obtain rfl := links.unique sane.exclusive target.links
    cases prepared with
    | existing found _ _ =>
      obtain ⟨chosen, live, same⟩ := lookup_some found
      exact formed.unique owns links listed chosen matched.1 live.1 (matched.2.symm.trans same)
    | vacant missing _ => exact absurd matched.2.symm (lookup_none missing listed matched.1)
  · exact absurd free (links.fat_ne_zero inside)

omit sane formed target in
theorem Prepared.holds (owns : Owns vol v (some pos) isDir start) :
    isDir = false ∧ v.lookup vol name ps = some pos := by
  obtain ⟨kind, _, live, used⟩ := owns.entry_inv
  cases prepared with
  | existing found isFile _ => exact ⟨kind.trans isFile, found⟩
  | vacant _ slot =>
    cases slot with
    | within found =>
      rcases (vacant_of_find found).free with unused | deleted
      · exact absurd unused used
      · simp [Live, entryHidden, deleted] at live
    | grown _ _ _ free =>
      obtain ⟨_, _, _, _, links, listed⟩ := owns.listed
      exact absurd free (links.fat_ne_zero (mem_slots.mp (View.mem_slots_of_listing listed)).1)

omit sane formed target in
theorem Prepared.not_dir (owns : Owns vol v other true d) : other ≠ some pos := by
  rintro rfl
  cases (prepared.holds owns).1

variable {ns : List Nat} (takes : Takes vol u w ns)
include takes

theorem Prepared.kept (entry : Mem) {cs : List Nat} (owns : Owns vol v other isDir start) (away : other ≠ some pos)
    (links : v.Links vol start cs) :
    ∃ es, (w.setSlot pos entry).Links vol start (cs ++ es) ∧ u.Links vol start (cs ++ es) ∧
      (∀ q ∈ slots vol cs, q ≠ pos → (w.setSlot pos entry).slot q = v.slot q) ∧
      (isDir = false → es = [] ∧ ∀ c ∈ cs, (w.setSlot pos entry).data c = v.data c) := by
  obtain ⟨es, relinks, sectors, whole⟩ := prepared.chain sane formed target owns away links
  have outside : ∀ c ∈ cs ++ es, c ∉ ns := fun c member taken => relinks.fat_ne_zero member (takes.free c taken)
  refine ⟨es, relinks.congr fun c member => takes.fat c (outside c member), relinks, fun q member differ => ?_,
    fun isFile => ⟨whole isFile, fun c member => ?_⟩⟩
  · rw [View.setSlot_slot_ne _ _ differ]
    have here := (mem_slots.mp member).1
    exact View.slot_eq_of_data ((takes.data _ (outside _ (mem_append_left _ here))).trans (sectors _ here))
  · have differ : c ≠ pos.cluster := by
      rintro rfl
      rcases prepared.place with inside | free
      · obtain rfl := formed.same_owner owns target.owns links target.links member (mem_slots.mp inside).1
        rw [owns.isDir_eq target.owns] at isFile
        cases isFile
      · exact links.fat_ne_zero member free
    rw [← sectors c member, ← takes.data c (outside c (mem_append_left _ member))]
    funext s byte
    simp [View.setSlot, differ]

variable {entry : Mem} (short : ∀ byte, 32 ≤ byte → entry byte = 0) (used : entry 0 ≠ 0) (named : entryName entry = to83 name)
include short used named

theorem Prepared.finds_other {ds : List Nat} {sought : List UInt8} {q : Pos} (owns : Owns vol v other true d)
    (links : v.Links vol d ds) (found : v.lookup vol sought ds = some q) (differ : q ≠ pos) :
    ∃ es, (w.setSlot pos entry).Links vol d es ∧ (w.setSlot pos entry).lookup vol sought es = some q ∧
      (w.setSlot pos entry).slot q = v.slot q := by
  obtain ⟨es, relinks, _, same, _⟩ :=
    prepared.kept sane formed target takes entry owns (prepared.not_dir owns) links
  obtain ⟨before, after, split, usedThere, matched, earlier⟩ := lookup_eq_some.mp found
  have listed := (lookup_some found).1
  have there := same q (View.mem_slots_of_listing listed) differ
  refine ⟨ds ++ es, relinks, lookup_eq_some.mpr ⟨before, after ++ slots vol es, by simp [slots_append, split], ?_, ?_,
    fun p member => ?_⟩, there⟩
  · rwa [there]
  · rwa [View.Matches, there]
  · have inside : p ∈ slots vol ds := by simp [split, member]
    by_cases here : p = pos
    · subst here
      rw [View.Matches, View.setSlot_slot _ _ short, named]
      refine ⟨used, fun clash => differ (prepared.only sane formed target owns links inside listed ⟨matched.1, ?_⟩)⟩
      rw [← clash.2, matched.2]
    · rw [View.Matches, same p inside here]
      exact earlier p member

theorem Prepared.finds (visible : entryHidden entry = false) :
    pos.cluster ∉ ns ∧ ∃ es, (w.setSlot pos entry).Links vol parent es ∧
      (w.setSlot pos entry).lookup vol name es = some pos := by
  obtain ⟨es, relinks, staged, same, _⟩ :=
    prepared.kept sane formed target takes entry target.owns (prepared.not_dir target.owns) target.links
  obtain ⟨before, after, split, earlier⟩ := prepared.site sane target staged
  have here : pos ∈ slots vol (ps ++ es) := by simp [split]
  have distinct : (slots vol (ps ++ es)).Nodup := slots_nodup (relinks.nodup sane.exclusive)
  rw [split] at distinct
  refine ⟨fun taken => staged.fat_ne_zero (mem_slots.mp here).1 (takes.free _ taken), ps ++ es, relinks,
    lookup_eq_some.mpr ⟨before, after, split, ?_, ?_, fun q member => ?_⟩⟩
  · rwa [View.setSlot_slot _ _ short]
  · rw [View.Matches, View.setSlot_slot _ _ short]
    exact ⟨visible, named.symm⟩
  · obtain ⟨inside, usedThere, missed⟩ := earlier q member
    have differ : q ≠ pos := (nodup_append.mp distinct).2.2 q member pos mem_cons_self
    rw [View.Matches, same q inside differ]
    exact ⟨usedThere, missed⟩

theorem Prepared.findsDirectories_entry : FindsDirectories vol v (w.setSlot pos entry) := by
  intro other d ds sought q owns links found isDir
  have child := owns.found links found
  rw [isDir] at child
  exact prepared.finds_other sane formed target takes short used named owns links found
    fun here => prepared.not_dir child (congrArg some here)

end Frame

section Outcome

variable {path data : List UInt8} {size : Nat} (sane : Sane vol) (formed : Formed vol v)
  (begins : ∀ path, ∃ owner, Owns vol v owner true (startCluster vol path))
  (wrote : Wrote vol v path data (some size) w)
include sane formed begins wrote

theorem Wrote.names (storable : ∀ {parent name owner ps}, Target vol v path parent name owner ps → Storable name)
    (narrow : data.length < 2 ^ 32) : ∃ pos cs, FileAt vol w path pos cs ∧
    entrySize (w.slot pos) = data.length ∧ data <+: w.bytes vol cs := by
  cases wrote with
  | @written parent first name owner ps cs pos u w target prepared content =>
    obtain ⟨used, live⟩ := (storable target).live 0x20 (by decide) first data.length
    have short := newEntry_short name 0x20 first data.length
    have named := newEntry_name name 0x20 first data.length
    have there := w.setSlot_slot pos short
    have walk := FindsDirectories.walk
      (prepared.findsDirectories_entry sane formed target content.takes short used named) target.walk (begins path)
    obtain ⟨outside, es, links, found⟩ := prepared.finds sane formed target content.takes short used named live.1
    have isFile : entryIsDir (newEntry name 0x20 first data.length) = false := by
      rw [entryIsDir, newEntry_attr]
      decide
    refine ⟨pos, cs, ⟨⟨parent, name, es, walk, target.named, links, found⟩, by rw [there, isFile], ?_⟩, ?_, ?_⟩
    · rw [there]
      rcases content with ⟨_, rfl, rfl, _⟩ | ⟨_, chain, inside⟩
      · exact .inl ⟨isFile, newEntry_cluster _ _ _ _ (by omega), rfl⟩
      · have low : first < 2 ^ 32 := by
          have marks := sane.belowMarks
          have below := inside.2
          omega
        rw [ChainOf, newEntry_cluster _ _ _ _ low]
        exact .inr chain
    · rw [there, newEntry_size _ _ _ _ narrow]
    · rcases content with ⟨rfl, _, _, _⟩ | ⟨filled, _, _⟩
      · exact nil_prefix
      · rw [View.bytes_congr fun c member => ?_]
        · exact filled.content
        · have differ : c ≠ pos.cluster := fun same => outside (same ▸ member)
          funext s byte
          simp [View.setSlot, differ]

theorem Wrote.keeps
    (plain : ∀ {parent name owner ps}, Target vol v path parent name owner ps → (to83 name).head? ≠ some 0)
    {other : List UInt8} {q : Pos} {ds : List Nat} (file : FileAt vol v other q ds)
    (different : ∀ cs, ¬FileAt vol v path q cs) :
    FileAt vol w other q ds ∧ w.slot q = v.slot q ∧ w.bytes vol ds = v.bytes vol ds := by
  cases wrote with
  | @written parent first name owner ps cs pos u w target prepared content =>
    have used := newEntry_used (plain target) 0x20 first data.length
    have short := newEntry_short name 0x20 first data.length
    have named := newEntry_name name 0x20 first data.length
    obtain ⟨d, leaf, ls, walk, isNamed, links, found⟩ := file.found
    obtain ⟨holder, owns⟩ := walk.owns (begins other)
    have entry := owns.found links found
    have differ : q ≠ pos := by
      rintro rfl
      exact different ds ⟨⟨parent, name, ps, target.walk, target.named, target.links, (prepared.holds entry).2⟩,
        file.isFile, file.chain⟩
    have rewalk := FindsDirectories.walk
      (prepared.findsDirectories_entry sane formed target content.takes short used named) walk (begins other)
    obtain ⟨es, relinks, refound, same⟩ :=
      prepared.finds_other sane formed target content.takes short used named owns links found differ
    have chain : ChainOf vol (w.setSlot pos (newEntry name 0x20 first data.length)) (v.slot q) ds ∧
        ∀ c ∈ ds, (w.setSlot pos (newEntry name 0x20 first data.length)).data c = v.data c := by
      rcases file.chain with ⟨isFile, zero, rfl⟩ | chain
      · exact ⟨.inl ⟨isFile, zero, rfl⟩, fun _ none => by cases none⟩
      · obtain ⟨es, rechain, _, _, whole⟩ := prepared.kept sane formed target content.takes
          (newEntry name 0x20 first data.length) entry (fun here => differ (Option.some.inj here)) chain
        obtain ⟨rfl, sectors⟩ := whole file.isFile
        rw [append_nil] at rechain
        exact ⟨.inr rechain, sectors⟩
    refine ⟨⟨⟨d, leaf, es, rewalk, isNamed, relinks, refound⟩, ?_, ?_⟩, same, View.bytes_congr chain.2⟩
    · rw [same, file.isFile]
    · rw [same]
      exact chain.1

end Outcome

end GWKernel.Fat
