import GWKernel.Proofs.FatOperations

/-! Successful operations keep the tree sound. Each is a sequence of moves, not always in the
order in which the code makes them. -/

namespace GWKernel.Fat
open Lib List

variable {vol : Volume} {v w : View}

variable {cs : List Nat} {owner : Option Pos} {d : Nat} {ds : List Nat} {pos : Pos} {name : List UInt8}
  {parent : Nat} {path : List UInt8}

theorem Sound.free_untouched (sound : Sound vol v cs) : Untouched vol v (v.freeAll cs) := by
  intro owner isDir start ds owns links c member
  have owned : c ∉ cs := fun loose => sound.unowned loose owns links member
  simp [View.freeAll, owned]

theorem Sound.free (sane : Sane vol) {cs : List Nat} (sound : Sound vol v cs) : Sound vol (v.freeAll cs) [] := by
  refine sound.frame sane sound.free_untouched (fun c inside used => .inr ?_) fun none => by cases none
  by_cases loose : c ∈ cs
  · simp [View.freeAll, loose] at used
  · simpa [View.freeAll, loose] using used

structure Takes (vol : Volume) (v w : View) (cs : List Nat) : Prop where
  free : ∀ c ∈ cs, v.fat c = 0
  fat : ∀ c, c ∉ cs → w.fat c = v.fat c
  data : ∀ c, c ∉ cs → w.data c = v.data c

theorem Takes.untouched (takes : Takes vol v w cs) : Untouched vol v w := by
  intro owner isDir start ds owns links c member
  have other : c ∉ cs := fun taken => links.fat_ne_zero member (takes.free c taken)
  exact ⟨takes.fat c other, takes.data c other⟩

theorem Sound.take (sane : Sane vol) (sound : Sound vol v []) (takes : Takes vol v w cs) : Sound vol w cs := by
  refine sound.frame sane takes.untouched (fun c inside used => ?_) fun taken owns links member =>
    links.fat_ne_zero member (takes.free _ taken)
  by_cases taken : c ∈ cs
  · exact .inl taken
  · rw [takes.fat c taken] at used
    exact .inr ⟨used, not_mem_nil⟩

theorem Takes.setSlot (takes : Takes vol v w cs) (pos : Pos) (entry : Mem) :
    Takes vol (v.setSlot pos entry) (w.setSlot pos entry) cs := by
  refine ⟨takes.free, takes.fat, fun c other => ?_⟩
  simp only [View.setSlot, takes.data c other]

theorem Content.takes {u : View} {first : Nat} {data : List UInt8} (content : Content vol u w first cs data) :
    Takes vol u w cs := by
  rcases content with ⟨_, _, rfl, rfl⟩ | ⟨filled, _, _⟩
  · exact ⟨fun _ none => (by cases none), fun _ _ => rfl, fun _ _ => rfl⟩
  · exact ⟨fun c member => (filled.fresh c member).2, filled.fat, filled.kept⟩

theorem takes_addDirectory {nc : Nat} (parent : Nat) (free : v.fat nc = 0) :
    Takes vol v (v.addDirectory nc parent) [nc] := by
  refine ⟨fun c member => ?_, fun c other => ?_, fun c other => ?_⟩
  · rw [mem_singleton.mp member, free]
  · simp [View.addDirectory, View.setDirectory, View.setFat, mem_singleton.not.mp other]
  · funext s
    simp [View.addDirectory, View.setDirectory, View.setFat, mem_singleton.not.mp other]

/-- A vacant slot in a directory where a name is not taken. -/
structure Spot (vol : Volume) (v : View) (owner : Option Pos) (d : Nat) (ds : List Nat) (pos : Pos)
    (name83 : List UInt8) : Prop where
  parent : Owns vol v owner true d
  links : v.Links vol d ds
  vacant : Vacant vol v ds pos
  fresh : ∀ q ∈ v.listing vol ds, entryHidden (v.slot q) = false → entryName (v.slot q) ≠ name83

theorem Spot.frame (sane : Sane vol) (formed : Formed vol v) {name83 : List UInt8}
    (spot : Spot vol v owner d ds pos name83) (untouched : Untouched vol v w) : Spot vol w owner d ds pos name83 := by
  have same : ∀ q ∈ slots vol ds, w.slot q = v.slot q := fun q member =>
    untouched.slot_eq spot.parent spot.links member
  refine ⟨(untouched.owns_iff sane formed).mpr spot.parent, untouched.links spot.parent spot.links, ⟨?_, ?_⟩, ?_⟩
  · rw [same pos spot.vacant.mem]
    exact spot.vacant.free
  · obtain ⟨before, after, split, earlier⟩ := spot.vacant.place
    refine ⟨before, after, split, fun q member => ?_⟩
    rw [same q (by simp [split, member])]
    exact earlier q member
  · intro q listed visible
    rw [untouched.listing_eq spot.parent spot.links] at listed
    rw [same q (View.mem_slots_of_listing listed)] at visible ⊢
    exact spot.fresh q listed visible

theorem Entry.spot (sane : Sane vol) (sound : Sound vol v []) {mark : Mem} (entry : Entry vol v owner d ds pos cs)
    (isFile : entryIsDir (v.slot pos) = false) (short : ∀ byte, 32 ≤ byte → mark byte = 0) (deleted : mark 0 = 0xE5) :
    Spot vol (v.setSlot pos mark) owner d ds pos (entryName (v.slot pos)) := by
  have bare : entryIsDir (v.slot pos) = true → ∀ q ∈ v.listing vol cs, ¬Live (v.slot q) := fun isDir => by
    rw [isFile] at isDir
    cases isDir
  have away : owner ≠ some pos := by
    rintro rfl
    have isDir := entry.parent.entry_inv.1
    rw [isFile] at isDir
    cases isDir
  refine ⟨entry.removed_owns sane bare short deleted entry.parent away, entry.links, ⟨.inr ?_, ?_⟩, ?_⟩
  · rw [View.setSlot_slot v pos short, deleted]
  · obtain ⟨before, after, split, _, earlier⟩ := View.mem_listing.mp entry.listed
    exact ⟨before, after, split, fun q member unused =>
      earlier q member ((entry.removed_unused short deleted q).mp unused)⟩
  · intro q listed visible same
    rw [entry.removed_listing short deleted] at listed
    have differ : q ≠ pos := by
      rintro rfl
      rw [removed_hidden short deleted] at visible
      cases visible
    rw [View.setSlot_slot_ne v mark differ] at visible same
    exact differ (sound.unique entry.parent entry.links listed entry.listed visible entry.live.1 same)

theorem vacant_of_find (found : (slots vol ds).find? v.isFree = some pos) : Vacant vol v ds pos := by
  obtain ⟨free, before, after, split, earlier⟩ := find?_eq_some_iff_append.mp found
  refine ⟨by simpa [View.isFree] using free, before, after, split, fun q member unused => ?_⟩
  have taken := earlier q member
  simp [View.isFree, unused] at taken

theorem slots_used (noFree : (slots vol ds).find? v.isFree = none) : ∀ q ∈ slots vol ds, v.slot q 0 ≠ 0 := by
  intro q member unused
  have taken := find?_eq_none.mp noFree q member
  simp [View.isFree, unused] at taken

def KeepsDirectories (vol : Volume) (v w : View) : Prop :=
  ∀ {owner d}, Owns vol v owner true d → Owns vol w owner true d

theorem SlotFound.spot (sane : Sane vol) {loose : List Nat} (sound : Sound vol v loose)
    (inUse : ∀ c ∈ loose, v.fat c ≠ 0) (slot : SlotFound vol v ds (some pos) w) (owns : Owns vol v owner true d)
    (links : v.Links vol d ds) (missing : v.lookup vol name ds = none) :
    Sound vol w loose ∧ KeepsDirectories vol v w ∧ ∃ es, Spot vol w owner d es pos (to83 name) := by
  cases slot with
  | within found =>
    exact ⟨sound, id, ds, owns, links, vacant_of_find found, fun q listed visible => lookup_none missing listed visible⟩
  | @grown before last nc noFree chain candidate free =>
    subst chain
    have full := slots_used noFree
    have growing : Growing vol v owner d before last nc := ⟨owns, links, full, inside_of_candidate candidate, free⟩
    refine ⟨sound.grow sane growing fun member => inUse nc member free,
      fun owns => (growing.owns_iff sane sound.toFormed).mpr owns, before ++ [last] ++ [nc],
      (growing.owns_iff sane sound.toFormed).mpr owns, growing.links_grown sane, ⟨.inl ?_, ?_⟩, ?_⟩
    · exact grow_blank (mem_slots.mpr ⟨mem_singleton_self _, sane.hasSectors, by simp⟩)
    · obtain ⟨rest, head⟩ := clusterSlots_head sane nc
      refine ⟨slots vol (before ++ [last]), rest, ?_, fun q member => ?_⟩
      · rw [slots_append]
        simp [slots, head]
      · rw [growing.slot_eq links member]
        exact full q member
    · intro q listed visible
      rw [growing.listing_full] at listed
      rw [growing.slot_eq links (View.mem_slots_of_listing listed)] at visible ⊢
      exact lookup_none missing listed visible

theorem SlotFound.keeps (slot : SlotFound vol v ds (some pos) w) {c : Nat} (used : v.fat c ≠ 0) (outside : c ∉ ds) :
    w.fat c = v.fat c ∧ w.data c = v.data c := by
  cases slot with
  | within _ => exact ⟨rfl, rfl⟩
  | @grown before last nc _ chain _ free =>
    have notNew : c ≠ nc := fun same => used (same ▸ free)
    have notLast : c ≠ last := fun same => outside (by simp [chain, same])
    simp [View.grow, notNew, notLast]

def validChar (char : UInt8) : Bool := char != 0 && char != 0x20 && char != 0x2E && !isSeparator char

/-- A base of 1 to 8 bytes and an extension of 1 to 3. 0xE5 in front would mark the entry deleted.
-/
structure Valid83 (name base extension : List UInt8) : Prop where
  parts : name = base ∧ extension = [] ∨ name = base ++ 0x2E :: extension ∧ extension ≠ []
  baseSize : 1 ≤ base.length ∧ base.length ≤ 8
  extensionSize : extension.length ≤ 3
  plain : ∀ char ∈ base ++ extension, validChar char = true
  notDeleted : base.head? ≠ some 0xE5

/-- All components of a path are valid short names. -/
def ValidPath (path : List UInt8) : Prop := ∀ part ∈ pathParts path.length path, ∃ base extension, Valid83 part base extension

theorem Walk.name_last {start : Nat} {parts : List (List UInt8)} (walk : Walk vol v start parts parent name)
    (named : name ≠ []) : parts.getLast? = some name := by
  induction walk with
  | done => exact absurd rfl named
  | last => rfl
  | stay _ ih => exact getLast?_cons_cons.trans (ih named)
  | top _ ih => exact getLast?_cons_cons.trans (ih named)
  | down _ _ _ _ _ _ ih => exact getLast?_cons_cons.trans (ih named)

/-- A name whose entry is not taken for an unused or a deleted one. -/
def Storable (name : List UInt8) : Prop := ∃ char, (to83 name).head? = some char ∧ char ≠ 0 ∧ char ≠ 0xE5

theorem to83_first {first : UInt8} {rest : List UInt8} (nonzero : first ≠ 0) :
    ∃ char, (to83 (first :: rest)).head? = some char ∧ char ≠ 0 ∧ (char = 0xE5 ↔ first = 0xE5) := by
  by_cases stops : (first != 0x2E && !isSeparator first) = true
  · refine ⟨upper first, by simp only [to83, takeWhile_cons, stops]; rfl, ?_, fun same => ?_, fun same => by rw [same]; decide⟩
    · exact upper_ne (by decide) nonzero
    · by_contra other
      exact upper_ne (by decide) other same
  · refine ⟨0x20, by simp only [to83, takeWhile_cons, stops]; rfl, by decide, iff_of_false (by decide) ?_⟩
    rintro rfl
    exact stops (by decide)

theorem Valid83.storable {base extension : List UInt8} (valid : Valid83 name base extension) : Storable name := by
  obtain ⟨first, rest, shape⟩ := exists_cons_of_length_pos valid.baseSize.1
  subst shape
  have plain := valid.plain first mem_cons_self
  simp only [validChar, Bool.and_eq_true, bne_iff_ne, Bool.not_eq_true'] at plain
  have notDeleted : first ≠ 0xE5 := fun same => valid.notDeleted (by rw [same]; rfl)
  refine ⟨upper first, ?_, upper_ne (by decide) plain.1.1.1, upper_ne (by decide) notDeleted⟩
  have starts : ∃ tail, name = first :: tail := by
    rcases valid.parts with ⟨rfl, _⟩ | ⟨rfl, _⟩
    · exact ⟨rest, rfl⟩
    · exact ⟨rest ++ 0x2E :: extension, rfl⟩
  obtain ⟨tail, rfl⟩ := starts
  simp [to83, padTo, plain.1.2, plain.2]

theorem Storable.used (storable : Storable name) : (to83 name).head? ≠ some 0 := by
  obtain ⟨char, head, nonzero, _⟩ := storable
  rw [head]
  exact fun zero => nonzero (Option.some.inj zero)

theorem newEntry_used (used : (to83 name).head? ≠ some 0) (attr : UInt8) (cl size : Nat) :
    newEntry name attr cl size 0 ≠ 0 := by
  have first := entryName_head (newEntry name attr cl size)
  rw [newEntry_name] at first
  intro zero
  rw [zero] at first
  exact used first

theorem Storable.live (storable : Storable name) (attr : UInt8) (ordinary : attr &&& 0x08 = 0) (cl size : Nat) :
    newEntry name attr cl size 0 ≠ 0 ∧ Live (newEntry name attr cl size) := by
  have used := newEntry_used storable.used attr cl size
  obtain ⟨char, head, _, notDeleted⟩ := storable
  have first := entryName_head (newEntry name attr cl size)
  rw [newEntry_name, head] at first
  have byte : newEntry name attr cl size 0 = char := (Option.some.inj first).symm
  refine ⟨used, @live_of_eq83 name _ ?_ (eq83_iff.mpr (newEntry_name name attr cl size).symm)⟩
  simp [entryHidden, byte, notDeleted, newEntry_attr, ordinary]

theorem storable_of_lookup (found : v.lookup vol name ds = some pos) : Storable name := by
  obtain ⟨listed, live, same⟩ := lookup_some found
  refine ⟨v.slot pos 0, by rw [same, entryName_head], View.first_ne_zero_of_listing listed, fun deleted => ?_⟩
  simp [Live, entryHidden, deleted] at live

/-- The last component of a path can be stored; the others may be `.` or `..`. -/
def StorableLeaf (path : List UInt8) : Prop :=
  ∀ part, (pathParts path.length path).getLast? = some part → Storable part

theorem ValidPath.leaf (valid : ValidPath path) : StorableLeaf path := by
  intro part last
  obtain ⟨base, extension, name83⟩ := valid part (mem_of_getLast? last)
  exact name83.storable

theorem Target.storable {ps : List Nat} (target : Target vol v path parent name owner ps) (leaf : StorableLeaf path) :
    Storable name :=
  leaf name (target.walk.name_last target.named)

theorem Unlinked.sound (sane : Sane vol) (sound : Sound vol v []) {path : List UInt8} {ok : Bool}
    (unlinked : Unlinked vol v path ok w) : Sound vol w [] := by
  cases unlinked with
  | refused => exact sound
  | @removed parent name owner ps cs pos target found chain bare =>
    obtain ⟨listed, live, _⟩ := lookup_some found
    have entry : Entry vol v owner parent ps pos cs := ⟨target.owns, target.links, listed, live, chain⟩
    exact (sound.remove sane entry bare (deletedEntry_short v pos) rfl).free sane

theorem Prepared.spot (sane : Sane vol) (sound : Sound vol v []) {ps : List Nat} {u : View}
    (target : Target vol v path parent name owner ps) (prepared : Prepared vol v name ps pos u) :
    ∃ mark es, Sound vol (u.setSlot pos mark) [] ∧ KeepsDirectories vol v (u.setSlot pos mark) ∧
      Spot vol (u.setSlot pos mark) owner parent es pos (to83 name) := by
  cases prepared with
  | @existing cs found isFile chain =>
    obtain ⟨listed, live, same⟩ := lookup_some found
    have entry : Entry vol v owner parent ps pos cs := ⟨target.owns, target.links, listed, live, chain⟩
    have bare : entryIsDir (v.slot pos) = true → ∀ q ∈ v.listing vol cs, ¬Live (v.slot q) := fun isDir => by
      rw [isFile] at isDir
      cases isDir
    have removed := sound.remove sane entry bare (deletedEntry_short v pos) rfl
    have spot := entry.spot sane sound isFile (deletedEntry_short v pos) rfl
    have untouched : Untouched vol (v.setSlot pos (deletedEntry (v.slot pos)))
        ((v.setSlot pos (deletedEntry (v.slot pos))).freeAll cs) := removed.free_untouched
    refine ⟨deletedEntry (v.slot pos), ps, removed.free sane, fun {other d} owns => ?_, ?_⟩
    · refine (untouched.owns_iff sane removed.toFormed).mpr
        (entry.removed_owns sane bare (deletedEntry_short v pos) rfl owns ?_)
      rintro rfl
      have isDir := owns.entry_inv.1
      rw [isFile] at isDir
      cases isDir
    · rw [same]
      exact spot.frame sane removed.toFormed untouched
  | vacant missing slot =>
    obtain ⟨kept, stays, es, spot⟩ :=
      slot.spot sane sound (fun c none => by cases none) target.owns target.links missing
    -- Writing a slot's own bytes back changes nothing.
    have same : u.setSlot pos (u.slot pos) = u := by
      ext1
      · rfl
      · funext c s byte
        simp only [View.setSlot, View.slot, entryAt]
        split
        next here =>
          obtain ⟨⟨rfl, rfl⟩, low, high⟩ := here
          simp [show byte - 32 * pos.index < 32 by omega, show 32 * pos.index + (byte - 32 * pos.index) = byte by omega]
        next => rfl
    rw [← same] at kept stays spot
    exact ⟨u.slot pos, es, kept, stays, spot⟩

theorem View.setSlot_setSlot (v : View) (pos : Pos) (mark entry : Mem) :
    (v.setSlot pos mark).setSlot pos entry = v.setSlot pos entry := by
  ext1
  · rfl
  · funext c s byte
    simp only [setSlot]
    split <;> rfl

theorem Wrote.sound (sane : Sane vol) (sound : Sound vol v []) {path data : List UInt8} {size : Nat}
    (leaf : StorableLeaf path) (wrote : Wrote vol v path data (some size) w) :
    Sound vol w [] ∧ KeepsDirectories vol v w := by
  cases wrote with
  | @written parent first name owner ps cs pos u w target prepared content =>
    have storable := target.storable leaf
    obtain ⟨mark, es, ready, stays, spot⟩ := prepared.spot sane sound target
    have takes := content.takes.setSlot pos mark
    have untouched : Untouched vol (u.setSlot pos mark) (w.setSlot pos mark) := takes.untouched
    have loose := ready.take sane takes
    have place := spot.frame sane ready.toFormed untouched
    obtain ⟨used, live⟩ := storable.live 0x20 (by decide) first data.length
    have isFile : entryIsDir (newEntry name 0x20 first data.length) = false := by
      rw [entryIsDir, newEntry_attr]
      decide
    have insertion : Insertion vol (w.setSlot pos mark) owner parent es pos (newEntry name 0x20 first data.length) cs := by
      refine ⟨place.parent, place.links, place.vacant, ?_, newEntry_short _ _ _ _, used, live, ?_, ?_, ?_, ?_⟩
      · rw [newEntry_name]
        exact place.fresh
      · rcases content with ⟨_, rfl, rfl, _⟩ | ⟨_, links, inside⟩
        · exact .inl ⟨isFile, newEntry_cluster _ _ _ _ (by omega), rfl⟩
        · have narrow : first < 2 ^ 32 := by
            have marks := sane.belowMarks
            have below := inside.2
            omega
          rw [newEntry_cluster _ _ _ _ narrow]
          exact .inr ⟨inside, links⟩
      all_goals
        intro isDir
        rw [isFile] at isDir
        cases isDir
    have inserted := loose.insert sane insertion
    rw [View.setSlot_setSlot] at inserted
    refine ⟨inserted, fun owns => ?_⟩
    have kept := insertion.owns_old ((untouched.owns_iff sane ready.toFormed).mpr (stays owns))
    rwa [View.setSlot_setSlot] at kept

theorem clusterSlots_two (sane : Sane vol) (c : Nat) : ∃ rest, clusterSlots vol c = ⟨c, 0, 0⟩ :: ⟨c, 0, 1⟩ :: rest ∧
    ∀ q ∈ rest, q.cluster = c ∧ (q.sector ≠ 0 ∨ 2 ≤ q.index) := by
  obtain ⟨count, size⟩ := Nat.exists_eq_add_of_lt sane.hasSectors
  refine ⟨(List.range' 2 14).map (Pos.mk c 0) ++
    ((List.range count).map Nat.succ).flatMap fun s => (List.range 16).map (Pos.mk c s), ?_, ?_⟩
  · rw [clusterSlots, size, Nat.zero_add, range_succ_eq_map (n := count), flatMap_cons]
    rfl
  · intro q member
    rcases mem_append.mp member with first | later
    · obtain ⟨i, bounds, rfl⟩ := List.mem_map.mp first
      exact ⟨rfl, .inr (mem_range'_1.mp bounds).1⟩
    · simp only [mem_flatMap, List.mem_map] at later
      obtain ⟨s, ⟨t, _, rfl⟩, i, _, rfl⟩ := later
      exact ⟨rfl, .inl (Nat.succ_ne_zero t)⟩

theorem dotSector_tail (nc parent byte : Nat) (high : 64 ≤ byte) : dotSector nc parent byte = 0 := by
  have dot : dotName.length = 11 := rfl
  have dotdot : dotdotName.length = 11 := rfl
  simp only [dotSector, putCluster, Mem.put, Mem.copy, dot, dotdot]
  simp only [show ¬(32 + 20 ≤ byte ∧ byte < 32 + 20 + 2) by omega, show ¬(32 + 26 ≤ byte ∧ byte < 32 + 26 + 2) by omega,
    show ¬(32 + 11 ≤ byte ∧ byte < 32 + 11 + 1) by omega, show ¬(32 ≤ byte ∧ byte < 32 + 11) by omega,
    show ¬(0 + 20 ≤ byte ∧ byte < 0 + 20 + 2) by omega, show ¬(0 + 26 ≤ byte ∧ byte < 0 + 26 + 2) by omega,
    show ¬(11 ≤ byte ∧ byte < 11 + 1) by omega, show ¬(0 ≤ byte ∧ byte < 0 + 11) by omega, if_false]
  rfl

structure Bare (v : View) (nc parent : Nat) : Prop where
  first : v.data nc 0 = dotSector nc parent
  rest : ∀ s, s ≠ 0 → v.data nc s = blank

section Bare

variable {nc parent : Nat} (bare : Bare v nc parent)
include bare

theorem Bare.dots : (v.slot ⟨nc, 0, 0⟩ 0 = 0x2E ∧ v.slot ⟨nc, 0, 0⟩ 1 = 0x20) ∧
    v.slot ⟨nc, 0, 1⟩ 0 = 0x2E ∧ v.slot ⟨nc, 0, 1⟩ 1 = 0x2E ∧ v.slot ⟨nc, 0, 1⟩ 2 = 0x20 := by
  simp only [View.slot, bare.first]
  refine ⟨⟨?_, ?_⟩, ?_, ?_, ?_⟩ <;> rfl

theorem Bare.unused {q : Pos} (here : q.cluster = nc) (later : q.sector ≠ 0 ∨ 2 ≤ q.index) : v.slot q 0 = 0 := by
  by_cases sector : q.sector = 0
  · have high : 2 ≤ q.index := by
      rcases later with other | high
      · exact absurd sector other
      · exact high
    simp only [View.slot, here, sector, bare.first, entryAt]
    simpa using dotSector_tail nc parent (32 * q.index) (by omega)
  · simp [View.slot, here, bare.rest _ sector, entryAt, blank]

variable (sane : Sane vol)
include sane

theorem Bare.listing : v.listing vol [nc] = [⟨nc, 0, 0⟩, ⟨nc, 0, 1⟩] := by
  obtain ⟨rest, split, later⟩ := clusterSlots_two sane nc
  have zero : rest.takeWhile (fun pos => v.slot pos 0 != 0) = [] := by
    rw [takeWhile_eq_nil_iff]
    intro nonempty
    have place := later _ (getElem_mem nonempty)
    simp [bare.unused place.1 place.2]
  have dots := bare.dots
  simp [View.listing, slots, split, dots.1.1, dots.2.1, zero]

theorem Bare.not_live : ∀ q ∈ v.listing vol [nc], ¬Live (v.slot q) := by
  have dots := bare.dots
  rw [bare.listing sane]
  intro q member live
  rcases mem_pair.mp member with rfl | rfl
  · simp [Live, entryDot, dots.1] at live
  · simp [Live, entryDot, dots.2] at live

theorem Bare.named : ∀ p ∈ v.listing vol [nc], ∀ q ∈ v.listing vol [nc],
    entryName (v.slot p) = entryName (v.slot q) → p = q := by
  have dots := bare.dots
  have differ : entryName (v.slot ⟨nc, 0, 0⟩) ≠ entryName (v.slot ⟨nc, 0, 1⟩) := fun same => by
    have second := congrArg (fun name => name[1]?) same
    simp [entryName, Mem.slice, dots.1.2, dots.2.2.1] at second
  rw [bare.listing sane]
  intro p first q second same
  rcases mem_pair.mp first with rfl | rfl <;> rcases mem_pair.mp second with rfl | rfl
  · rfl
  · exact absurd same differ
  · exact absurd same.symm differ
  · rfl

theorem Bare.tail : (slots vol [nc]).Pairwise fun p q => v.slot p 0 = 0 → v.slot q 0 = 0 := by
  obtain ⟨rest, split, later⟩ := clusterSlots_two sane nc
  have dots := bare.dots
  have whole : slots vol [nc] = ⟨nc, 0, 0⟩ :: ⟨nc, 0, 1⟩ :: rest := by simp [slots, split]
  rw [whole]
  refine pairwise_cons.mpr ⟨fun q _ unused => ?_, pairwise_cons.mpr ⟨fun q _ unused => ?_, ?_⟩⟩
  · rw [dots.1.1] at unused
    cases unused
  · rw [dots.2.1] at unused
    cases unused
  · exact pairwise_of_forall_mem_list fun p _ q member _ =>
      bare.unused (later q member).1 (later q member).2

end Bare

theorem Made.sound (sane : Sane vol) (sound : Sound vol v []) {path : List UInt8} (leaf : StorableLeaf path)
    (made : Made vol v path true w) : Sound vol w [] ∧ KeepsDirectories vol v w := by
  cases made with
  | @made parent nc name owner ps pos w target missing candidate free slot =>
    have storable := target.storable leaf
    have inside := inside_of_candidate candidate
    have takes : Takes vol v (v.addDirectory nc parent) [nc] := takes_addDirectory parent free
    have loose := sound.take sane takes
    have mark : (v.addDirectory nc parent).fat nc = 0x0FFFFFFF := by
      simp [View.addDirectory, View.setDirectory, View.setFat]
    have untouched : Untouched vol v (v.addDirectory nc parent) := takes.untouched
    have owns := (untouched.owns_iff sane sound.toFormed).mpr target.owns
    have links := untouched.links target.owns target.links
    have stillMissing := (untouched.lookup_eq target.owns target.links name).trans missing
    obtain ⟨kept, stays, es, spot⟩ := slot.spot sane loose (fun c member => by
      rw [mem_singleton.mp member, mark]
      omega) owns links stillMissing
    have outside : nc ∉ ps := fun member => target.links.fat_ne_zero member free
    obtain ⟨stops, sectors⟩ := slot.keeps (by rw [mark]; omega) outside
    have bare : Bare w nc parent := by
      constructor
      · rw [sectors]
        simp [View.addDirectory, View.setDirectory]
      · intro s later
        rw [sectors]
        simp [View.addDirectory, View.setDirectory, later]
    have narrow : nc < 2 ^ 32 := by
      have marks := sane.belowMarks
      have below := inside.2
      omega
    obtain ⟨used, live⟩ := storable.live 0x10 (by decide) nc 0
    have insertion : Insertion vol w owner parent es pos (newEntry name 0x10 nc 0) [nc] := by
      refine ⟨spot.parent, spot.links, spot.vacant, ?_, newEntry_short _ _ _ _, used, live, .inr ?_,
        fun _ => bare.not_live sane, fun _ => bare.named sane, fun _ => bare.tail sane⟩
      · rw [newEntry_name]
        exact spot.fresh
      · rw [newEntry_cluster _ _ _ _ narrow]
        exact ⟨inside, .link inside (.done (by rw [stops, mark]; unfold IsEnd; omega))⟩
    exact ⟨kept.insert sane insertion, fun owns =>
      insertion.owns_old (stays ((untouched.owns_iff sane sound.toFormed).mpr owns))⟩

theorem Unlinked.keeps (sane : Sane vol) (sound : Sound vol v []) {ok : Bool} (unlinked : Unlinked vol v path ok w)
    (owns : Owns vol v owner true d) (spared : ∀ size, ¬Resolves vol v path (d, size, true)) :
    Owns vol w owner true d := by
  cases unlinked with
  | refused => exact owns
  | @removed parent name parentOwner ps cs pos target found chain bare =>
    obtain ⟨listed, live, _⟩ := lookup_some found
    have entry : Entry vol v parentOwner parent ps pos cs := ⟨target.owns, target.links, listed, live, chain⟩
    have removed := sound.remove sane entry bare (deletedEntry_short v pos) rfl
    have untouched : Untouched vol (v.setSlot pos (deletedEntry (v.slot pos)))
        ((v.setSlot pos (deletedEntry (v.slot pos))).freeAll cs) := removed.free_untouched
    refine (untouched.owns_iff sane removed.toFormed).mpr
      (entry.removed_owns sane bare (deletedEntry_short v pos) rfl owns ?_)
    rintro rfl
    obtain ⟨isDir, start, _⟩ := owns.entry_inv
    have resolves := Resolves.entry (target.walk.long target.named) target found
    rw [← isDir, ← start] at resolves
    exact spared _ resolves

end GWKernel.Fat
