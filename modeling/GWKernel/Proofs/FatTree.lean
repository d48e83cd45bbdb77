import GWKernel.Proofs.FatView

/-! The directory tree on a view of the disk: which entries are reachable, which chains they own,
and what makes it well formed. -/

namespace GWKernel.Fat
open Lib List

structure Pos where
  cluster : Nat
  sector : Nat
  index : Nat
deriving DecidableEq

def clusterSlots (vol : Volume) (c : Nat) : List Pos :=
  (List.range vol.secPerCluster).flatMap fun s => (List.range 16).map (Pos.mk c s)

def slots (vol : Volume) (cs : List Nat) : List Pos := cs.flatMap (clusterSlots vol)

/-- An entry that is neither deleted, nor a label, nor one of `.` and `..`. -/
def Live (entry : Mem) : Prop := entryHidden entry = false ∧ entryDot entry = false

def entryName (entry : Mem) : List UInt8 := entry.slice 0 11

namespace View

def slot (v : View) (pos : Pos) : Mem := entryAt (v.data pos.cluster pos.sector) (32 * pos.index)

def setSlot (v : View) (pos : Pos) (entry : Mem) : View :=
  { v with data := fun c s byte =>
      if (c = pos.cluster ∧ s = pos.sector) ∧ 32 * pos.index ≤ byte ∧ byte < 32 * pos.index + 32
      then entry (byte - 32 * pos.index) else v.data c s byte }

/-- The slots before the first that was never used. -/
def listing (vol : Volume) (v : View) (cs : List Nat) : List Pos :=
  (slots vol cs).takeWhile fun pos => v.slot pos 0 != 0

/-- The entry that `dir_find` settles on. -/
def lookup (vol : Volume) (v : View) (name : List UInt8) (cs : List Nat) : Option Pos :=
  (v.listing vol cs).find? fun pos => !entryHidden (v.slot pos) && eq83 name (v.slot pos)

end View

/-- The root, or a live entry in a directory reached from it, with its first cluster. -/
inductive Owns (vol : Volume) (v : View) : Option Pos → Bool → Nat → Prop where
  | root : Owns vol v none true vol.rootCluster
  | entry {owner : Option Pos} {d : Nat} {ds : List Nat} {pos : Pos} (parent : Owns vol v owner true d)
      (links : v.Links vol d ds) (listed : pos ∈ v.listing vol ds) (live : Live (v.slot pos)) :
      Owns vol v (some pos) (entryIsDir (v.slot pos)) (entryCluster (v.slot pos))

/-- Chains are in range, terminated and disjoint, and names are unique. A file may have no
cluster. -/
structure Formed (vol : Volume) (v : View) : Prop where
  chained : ∀ {owner isDir start}, Owns vol v owner isDir start →
    isDir = false ∧ start = 0 ∨ Inside vol start ∧ ∃ cs, v.Links vol start cs
  apart : ∀ {owner other isDir otherDir start from_ cs ds}, Owns vol v owner isDir start →
    Owns vol v other otherDir from_ → v.Links vol start cs → v.Links vol from_ ds → owner ≠ other →
    ∀ c ∈ cs, c ∉ ds
  unique : ∀ {owner d ds p q}, Owns vol v owner true d → v.Links vol d ds → p ∈ v.listing vol ds →
    q ∈ v.listing vol ds → entryHidden (v.slot p) = false → entryHidden (v.slot q) = false →
    entryName (v.slot p) = entryName (v.slot q) → p = q

/-- Well formed, with nothing after an unused slot, and every cluster in use owned but the `loose`
ones. -/
structure Sound (vol : Volume) (v : View) (loose : List Nat) : Prop extends Formed vol v where
  zeroTail : ∀ {owner d ds}, Owns vol v owner true d → v.Links vol d ds →
    (slots vol ds).Pairwise fun p q => v.slot p 0 = 0 → v.slot q 0 = 0
  used : ∀ {c}, Inside vol c → v.fat c ≠ 0 →
    c ∈ loose ∨ ∃ owner isDir start cs, Owns vol v owner isDir start ∧ v.Links vol start cs ∧ c ∈ cs
  unowned : ∀ {c owner isDir start cs}, c ∈ loose → Owns vol v owner isDir start → v.Links vol start cs → c ∉ cs

variable {vol : Volume} {v w : View}
  {cs : List Nat} {pos : Pos} {isDir : Bool} {start : Nat} {owner : Option Pos} {otherDir : Bool}

theorem mem_slots : pos ∈ slots vol cs ↔ pos.cluster ∈ cs ∧ pos.sector < vol.secPerCluster ∧ pos.index < 16 := by
  cases pos
  simp only [slots, clusterSlots, mem_flatMap, List.mem_map, mem_range, Pos.mk.injEq]
  constructor
  · rintro ⟨c, member, s, small, i, bound, rfl, rfl, rfl⟩
    exact ⟨member, small, bound⟩
  · rintro ⟨member, small, bound⟩
    exact ⟨_, member, _, small, _, bound, rfl, rfl, rfl⟩

theorem slots_append (cs ds : List Nat) : slots vol (cs ++ ds) = slots vol cs ++ slots vol ds := flatMap_append

theorem slots_nodup (distinct : cs.Nodup) : (slots vol cs).Nodup := by
  refine nodup_flatMap.mpr ⟨fun c _ => nodup_flatMap.mpr ⟨fun s _ => ?_, ?_⟩, ?_⟩
  · exact nodup_range.map fun i j same => by cases same; rfl
  · refine nodup_range.imp fun {s t} differ pos first second => ?_
    simp only [List.mem_map] at first second
    obtain ⟨i, _, rfl⟩ := first
    obtain ⟨j, _, same⟩ := second
    cases same
    exact differ rfl
  · refine distinct.imp fun {c d} differ pos first second => ?_
    simp only [clusterSlots, mem_flatMap, List.mem_map] at first second
    obtain ⟨s, _, i, _, rfl⟩ := first
    obtain ⟨t, _, j, _, same⟩ := second
    cases same
    exact differ rfl

namespace View

variable {pos : Pos} {cs : List Nat}

theorem slot_eq_of_data (same : w.data pos.cluster = v.data pos.cluster) : w.slot pos = v.slot pos := by
  unfold slot
  rw [same]

theorem setSlot_slot (v : View) (pos : Pos) {entry : Mem} (short : ∀ byte, 32 ≤ byte → entry byte = 0) :
    (v.setSlot pos entry).slot pos = entry := by
  funext byte
  simp only [slot, setSlot, entryAt]
  by_cases small : byte < 32
  · simp [small]
  · simp [small, short byte (by omega)]

theorem setSlot_slot_ne (v : View) {other : Pos} (entry : Mem) (differ : other ≠ pos) :
    (v.setSlot pos entry).slot other = v.slot other := by
  funext byte
  simp only [slot, setSlot, entryAt]
  by_cases small : byte < 32
  · have away : ¬((other.cluster = pos.cluster ∧ other.sector = pos.sector) ∧
        32 * pos.index ≤ 32 * other.index + byte ∧ 32 * other.index + byte < 32 * pos.index + 32) := by
      intro here
      apply differ
      cases other
      cases pos
      simp only at here
      simp only [here, Pos.mk.injEq, true_and]
      omega
    simp only [small, away, if_true, if_false]
  · simp only [small, if_false]

theorem mem_listing : pos ∈ v.listing vol cs ↔
    ∃ before after, slots vol cs = before ++ pos :: after ∧ v.slot pos 0 ≠ 0 ∧ ∀ q ∈ before, v.slot q 0 ≠ 0 := by
  unfold listing
  generalize slots vol cs = places
  induction places with
  | nil => simp
  | cons first rest ih =>
    by_cases unused : v.slot first 0 = 0
    · simp only [takeWhile_cons, unused, bne_self_eq_false, Bool.false_eq_true, if_false, not_mem_nil,
        false_iff]
      rintro ⟨before, after, split, here, earlier⟩
      cases before with
      | nil =>
        obtain ⟨rfl, _⟩ := List.cons.inj split
        exact here unused
      | cons head before =>
        obtain ⟨rfl, _⟩ := List.cons.inj split
        exact earlier _ mem_cons_self unused
    · have nonzero : (v.slot first 0 != 0) = true := by simpa using unused
      simp only [takeWhile_cons, nonzero, if_true, mem_cons, ih]
      constructor
      · rintro (rfl | ⟨before, after, rfl, here, earlier⟩)
        · exact ⟨[], rest, rfl, unused, fun _ member => nomatch member⟩
        · refine ⟨first :: before, after, rfl, here, fun q member => ?_⟩
          rcases mem_cons.mp member with rfl | later
          · exact unused
          · exact earlier q later
      · rintro ⟨before, after, split, here, earlier⟩
        cases before with
        | nil => exact .inl (List.cons.inj split).1.symm
        | cons head before =>
          obtain ⟨rfl, rest⟩ := List.cons.inj split
          exact .inr ⟨before, after, rest, here, fun q member => earlier q (mem_cons_of_mem _ member)⟩

theorem mem_slots_of_listing (listed : pos ∈ v.listing vol cs) : pos ∈ slots vol cs :=
  ( takeWhile_prefix _).subset listed

theorem first_ne_zero_of_listing (listed : pos ∈ v.listing vol cs) : v.slot pos 0 ≠ 0 := by
  obtain ⟨_, _, _, here, _⟩ := mem_listing.mp listed
  exact here

theorem listing_congr (same : ∀ pos ∈ slots vol cs, (w.slot pos 0 = 0 ↔ v.slot pos 0 = 0)) :
    w.listing vol cs = v.listing vol cs := by
  unfold listing
  generalize slots vol cs = places at same
  induction places with
  | nil => rfl
  | cons first rest ih =>
    have head := same first mem_cons_self
    have tail := ih fun pos member => same pos (mem_cons_of_mem _ member)
    by_cases unused : v.slot first 0 = 0
    · simp [unused, head.mpr unused]
    · have used : w.slot first 0 ≠ 0 := fun zero => unused (head.mp zero)
      simp [unused, used, tail]

theorem listing_mono (more : ∀ q, v.slot q 0 ≠ 0 → w.slot q 0 ≠ 0) (listed : pos ∈ v.listing vol cs) :
    pos ∈ w.listing vol cs := by
  obtain ⟨before, after, split, here, earlier⟩ := mem_listing.mp listed
  exact mem_listing.mpr ⟨before, after, split, more _ here, fun q member => more q (earlier q member)⟩

end View

theorem Owns.root_inv (owns : Owns vol v none isDir start) : isDir = true ∧ start = vol.rootCluster := by
  cases owns
  exact ⟨rfl, rfl⟩

theorem Owns.entry_inv (owns : Owns vol v (some pos) isDir start) :
    isDir = entryIsDir (v.slot pos) ∧ start = entryCluster (v.slot pos) ∧ Live (v.slot pos) ∧ v.slot pos 0 ≠ 0 := by
  cases owns with
  | entry _ _ listed live => exact ⟨rfl, rfl, live, View.first_ne_zero_of_listing listed⟩

theorem Owns.listed (owns : Owns vol v (some pos) isDir start) :
    ∃ owner d ds, Owns vol v owner true d ∧ v.Links vol d ds ∧ pos ∈ v.listing vol ds := by
  cases owns with
  | entry parent links listed _ => exact ⟨_, _, _, parent, links, listed⟩

theorem Owns.start_eq {other : Nat} (owns : Owns vol v owner isDir start) (again : Owns vol v owner otherDir other) :
    start = other := by
  cases owner with
  | none => exact owns.root_inv.2.trans again.root_inv.2.symm
  | some pos => exact owns.entry_inv.2.1.trans again.entry_inv.2.1.symm

theorem Owns.isDir_eq {other : Nat} (owns : Owns vol v owner isDir start) (again : Owns vol v owner otherDir other) :
    isDir = otherDir := by
  cases owner with
  | none => exact owns.root_inv.1.trans again.root_inv.1.symm
  | some pos => exact owns.entry_inv.1.trans again.entry_inv.1.symm

theorem not_links_zero (links : v.Links vol 0 cs) : False := by
  cases links with
  | done ends => exact absurd ends (by unfold IsEnd; omega)
  | link inside _ => exact absurd inside.1 (by omega)

theorem Formed.dir_links (formed : Formed vol v) {d : Nat} (owns : Owns vol v owner true d) :
    Inside vol d ∧ ∃ ds, v.Links vol d ds := by
  rcases formed.chained owns with ⟨no, _⟩ | chain
  · cases no
  · exact chain

theorem Formed.same_owner (formed : Formed vol v) {other : Option Pos} {d e c : Nat} {ds es : List Nat}
    (owns : Owns vol v owner isDir d) (again : Owns vol v other otherDir e) (links : v.Links vol d ds)
    (relinks : v.Links vol e es) (member : c ∈ ds) (too : c ∈ es) : owner = other := by
  by_contra differ
  exact formed.apart owns again links relinks differ c member too

/-- Owners that survive from one view to another: the slot of a kept entry is still listed,
unchanged. -/
structure Carries (vol : Volume) (v w : View) (keep : Option Pos → Prop) : Prop where
  parent : ∀ {owner d ds pos}, Owns vol v owner true d → v.Links vol d ds → pos ∈ v.listing vol ds →
    Live (v.slot pos) → keep (some pos) → keep owner
  child : ∀ {owner d ds pos}, Owns vol v owner true d → Owns vol w owner true d → keep owner → v.Links vol d ds →
    pos ∈ v.listing vol ds → Live (v.slot pos) → keep (some pos) →
    ∃ es, w.Links vol d es ∧ pos ∈ w.listing vol es ∧ w.slot pos = v.slot pos

theorem Carries.owns {keep : Option Pos → Prop} (carries : Carries vol v w keep)
    (owns : Owns vol v owner isDir start) (kept : keep owner) : Owns vol w owner isDir start := by
  induction owns with
  | root => exact .root
  | entry parent links listed live ih =>
    have above := carries.parent parent links listed live kept
    obtain ⟨es, relinks, relisted, same⟩ := carries.child parent (ih above) above links listed live kept
    rw [← same] at live ⊢
    exact .entry (ih above) relinks relisted live

def Untouched (vol : Volume) (v w : View) : Prop :=
  ∀ {owner isDir start cs}, Owns vol v owner isDir start → v.Links vol start cs →
    ∀ c ∈ cs, w.fat c = v.fat c ∧ w.data c = v.data c

section Frame

variable (sane : Sane vol) (formed : Formed vol v) (untouched : Untouched vol v w)
include untouched

variable {owner : Option Pos} {isDir : Bool} {start : Nat} {cs : List Nat}

section
variable (owns : Owns vol v owner isDir start)
include owns

theorem Untouched.links (links : v.Links vol start cs) : w.Links vol start cs :=
  links.congr fun c member => (untouched owns links c member).1

theorem Untouched.slot_eq {pos : Pos} (links : v.Links vol start cs)
    (member : pos ∈ slots vol cs) : w.slot pos = v.slot pos :=
  View.slot_eq_of_data (untouched owns links _ (mem_slots.mp member).1).2

theorem Untouched.listing_eq (links : v.Links vol start cs) :
    w.listing vol cs = v.listing vol cs :=
  View.listing_congr fun pos member => by rw [untouched.slot_eq owns links member]

theorem Untouched.lookup_eq (links : v.Links vol start cs) (name : List UInt8) :
    w.lookup vol name cs = v.lookup vol name cs := by
  unfold View.lookup
  rw [untouched.listing_eq owns links]
  refine find?_congr fun pos listed => ?_
  rw [untouched.slot_eq owns links (View.mem_slots_of_listing listed)]

end

include sane formed

theorem Untouched.links_back (owns : Owns vol v owner isDir start) (links : w.Links vol start cs) :
    v.Links vol start cs := by
  rcases formed.chained owns with ⟨_, rfl⟩ | ⟨_, ds, old⟩
  · exact (not_links_zero links).elim
  · rw [links.unique sane.exclusive (untouched.links owns old)]
    exact old

theorem Untouched.owns_iff : Owns vol w owner isDir start ↔ Owns vol v owner isDir start := by
  constructor
  · intro owns
    have carries : Carries vol w v fun _ => True := by
      refine ⟨fun _ _ _ _ _ => trivial, ?_⟩
      intro owner d ds pos _ before _ links listed live _
      have old := untouched.links_back sane formed before links
      rw [untouched.listing_eq before old] at listed
      exact ⟨ds, old, listed, (untouched.slot_eq before old (View.mem_slots_of_listing listed)).symm⟩
    exact carries.owns owns trivial
  · intro owns
    have carries : Carries vol v w fun _ => True := by
      refine ⟨fun _ _ _ _ _ => trivial, ?_⟩
      intro owner d ds pos before _ _ links listed live _
      refine ⟨ds, untouched.links before links, ?_, untouched.slot_eq before links (View.mem_slots_of_listing listed)⟩
      rwa [untouched.listing_eq before links]
    exact carries.owns owns trivial

theorem Untouched.still_formed : Formed vol w := by
  have back : ∀ {owner isDir start}, Owns vol w owner isDir start → Owns vol v owner isDir start :=
    fun owns => (untouched.owns_iff sane formed).mp owns
  constructor
  · intro owner isDir start owns
    rcases formed.chained (back owns) with empty | ⟨inside, cs, links⟩
    · exact .inl empty
    · exact .inr ⟨inside, cs, untouched.links (back owns) links⟩
  · intro owner other isDir otherDir start from_ cs ds owns again links relinks differ
    exact formed.apart (back owns) (back again) (untouched.links_back sane formed (back owns) links)
      (untouched.links_back sane formed (back again) relinks) differ
  · intro owner d ds p q owns links first second visible shown same
    have old := untouched.links_back sane formed (back owns) links
    rw [untouched.listing_eq (back owns) old] at first second
    rw [untouched.slot_eq (back owns) old (View.mem_slots_of_listing first)] at visible same
    rw [untouched.slot_eq (back owns) old (View.mem_slots_of_listing second)] at shown same
    exact formed.unique (back owns) old first second visible shown same

end Frame

theorem Sound.frame (sane : Sane vol) {loose now : List Nat} (sound : Sound vol v loose) (untouched : Untouched vol v w)
    (used : ∀ c, Inside vol c → w.fat c ≠ 0 → c ∈ now ∨ v.fat c ≠ 0 ∧ c ∉ loose)
    (unowned : ∀ {c owner isDir start cs}, c ∈ now → Owns vol v owner isDir start → v.Links vol start cs → c ∉ cs) :
    Sound vol w now := by
  have formed := sound.toFormed
  have back : ∀ {owner isDir start}, Owns vol w owner isDir start → Owns vol v owner isDir start :=
    fun owns => (untouched.owns_iff sane formed).mp owns
  constructor
  · exact Untouched.still_formed sane formed untouched
  · intro owner d ds owns links
    have old := untouched.links_back sane formed (back owns) links
    refine (sound.zeroTail (back owns) old).imp_of_mem fun {p q} first second tail => ?_
    rw [untouched.slot_eq (back owns) old first, untouched.slot_eq (back owns) old second]
    exact tail
  · intro c inside nonzero
    rcases used c inside nonzero with now | ⟨before, fixed⟩
    · exact .inl now
    · rcases sound.used inside before with loose | ⟨owner, isDir, start, cs, owns, links, member⟩
      · exact absurd loose fixed
      · exact .inr ⟨owner, isDir, start, cs, (untouched.owns_iff sane formed).mpr owns, untouched.links owns links, member⟩
  · intro c owner isDir start cs now owns links
    exact unowned now (back owns) (untouched.links_back sane formed (back owns) links)

end GWKernel.Fat
