import GWKernel.Proofs.FatTree

/-! The moves that operations are made of: a directory grows by a blank cluster, an entry is
removed or inserted. -/

namespace GWKernel.Fat
open Lib List

variable {vol : Volume} {v w : View}

/-- A blank cluster behind the last one of a chain. -/
def View.grow (v : View) (last nc : Nat) : View where
  fat c := if c = last then nc else if c = nc then 0x0FFFFFFF else v.fat c
  data c := if c = nc then fun _ => blank else v.data c

section Grow

variable {owner : Option Pos} {d last nc : Nat} {ds : List Nat}

def growChain (grown : Option Pos) (nc : Nat) (owner : Option Pos) (cs : List Nat) : List Nat :=
  if owner = grown then cs ++ [nc] else cs

variable {other : Option Pos} {cs : List Nat} {start : Nat} {isDir : Bool}

theorem mem_growChain {c : Nat} : c ∈ growChain owner nc other cs ↔ c ∈ cs ∨ other = owner ∧ c = nc := by
  by_cases same : other = owner <;> simp [growChain, same]

theorem grow_blank {pos : Pos} (member : pos ∈ slots vol [nc]) : (v.grow last nc).slot pos 0 = 0 := by
  have here : pos.cluster = nc := by simpa using (mem_slots.mp member).1
  simp [View.slot, View.grow, here, entryAt, blank]

/-- A full directory that is about to take over a free cluster. -/
structure Growing (vol : Volume) (v : View) (owner : Option Pos) (d : Nat) (ds : List Nat) (last nc : Nat) : Prop where
  owns : Owns vol v owner true d
  links : v.Links vol d (ds ++ [last])
  full : ∀ pos ∈ slots vol (ds ++ [last]), v.slot pos 0 ≠ 0
  inside : Inside vol nc
  free : v.fat nc = 0

variable (sane : Sane vol) (formed : Formed vol v) (growing : Growing vol v owner d ds last nc)
include growing

theorem Growing.ne_of_mem {c : Nat} (links : v.Links vol start cs) (member : c ∈ cs) : c ≠ nc :=
  fun same => links.fat_ne_zero member (same ▸ growing.free)

theorem Growing.slot_eq {pos : Pos} (links : v.Links vol start cs) (member : pos ∈ slots vol cs) :
    (v.grow last nc).slot pos = v.slot pos := by
  refine View.slot_eq_of_data ?_
  simp only [View.grow, growing.ne_of_mem links (mem_slots.mp member).1, if_false]

theorem Growing.listing_same (links : v.Links vol start cs) : (v.grow last nc).listing vol cs = v.listing vol cs :=
  View.listing_congr fun pos member => by rw [growing.slot_eq links member]

theorem Growing.listing_full : (v.grow last nc).listing vol (ds ++ [last] ++ [nc]) = v.listing vol (ds ++ [last]) := by
  have all : ∀ pos ∈ slots vol (ds ++ [last]), ((v.grow last nc).slot pos 0 != 0) = true := fun pos member => by
    rw [growing.slot_eq growing.links member]
    simpa using growing.full pos member
  have before : v.listing vol (ds ++ [last]) = slots vol (ds ++ [last]) :=
    takeWhile_eq_self_iff.mpr fun pos member => by simpa using growing.full pos member
  have unused : (slots vol [nc]).takeWhile (fun pos => (v.grow last nc).slot pos 0 != 0) = [] := by
    rw [takeWhile_eq_nil_iff]
    intro nonempty
    simp [grow_blank (getElem_mem nonempty)]
  rw [before, View.listing, slots_append, takeWhile_append_of_pos all, unused, append_nil]

include sane in
theorem Growing.links_grown : (v.grow last nc).Links vol d (ds ++ [last] ++ [nc]) := by
  have distinct := growing.links.nodup sane.exclusive
  rw [append_assoc]
  refine growing.links.extend (fun c member => ?_) ?_
  · have notLast : c ≠ last := fun same =>
      (nodup_append.mp distinct).2.2 c member last mem_cons_self same
    have notNew := growing.ne_of_mem growing.links (mem_append_left _ member)
    simp only [View.grow, notLast, notNew, if_false]
  · have other : nc ≠ last := fun same => growing.ne_of_mem growing.links (by simp) same.symm
    have hop : (v.grow last nc).fat last = nc := by simp [View.grow]
    have stop : (v.grow last nc).fat nc = 0x0FFFFFFF := by simp [View.grow, other]
    rw [hop]
    exact .link growing.inside (.done (by rw [stop]; unfold IsEnd; omega))

include formed in
theorem Growing.links_other (owns : Owns vol v other isDir start) (links : v.Links vol start cs)
    (differ : other ≠ owner) : (v.grow last nc).Links vol start cs := by
  refine links.congr fun c member => ?_
  have notLast : c ≠ last := fun same =>
    formed.apart owns growing.owns links growing.links differ c member (by simp [same])
  simp only [View.grow, notLast, growing.ne_of_mem links member, if_false]

include sane formed

theorem Growing.carry (owns : Owns vol v other isDir start) (links : v.Links vol start cs) :
    (v.grow last nc).Links vol start (growChain owner nc other cs) ∧
      (v.grow last nc).listing vol (growChain owner nc other cs) = v.listing vol cs := by
  by_cases same : other = owner
  · subst same
    obtain rfl := owns.start_eq growing.owns
    obtain rfl := links.unique sane.exclusive growing.links
    simp only [growChain, if_true]
    exact ⟨growing.links_grown sane, growing.listing_full⟩
  · simp only [growChain, same, if_false]
    exact ⟨growing.links_other formed owns links same, growing.listing_same links⟩

theorem Growing.carry_back {es : List Nat} (owns : Owns vol v other isDir start)
    (links : (v.grow last nc).Links vol start es) :
    ∃ cs, v.Links vol start cs ∧ es = growChain owner nc other cs := by
  rcases formed.chained owns with ⟨_, rfl⟩ | ⟨_, cs, old⟩
  · exact (not_links_zero links).elim
  · exact ⟨cs, old, links.unique sane.exclusive (growing.carry sane formed owns old).1⟩

theorem Growing.owns_iff : Owns vol (v.grow last nc) other isDir start ↔ Owns vol v other isDir start := by
  constructor
  · intro owns
    have carries : Carries vol (v.grow last nc) v fun _ => True := by
      refine ⟨fun _ _ _ _ _ => trivial, ?_⟩
      intro owner d ds pos _ before _ links listed live _
      obtain ⟨cs, old, rfl⟩ := growing.carry_back sane formed before links
      rw [(growing.carry sane formed before old).2] at listed
      exact ⟨cs, old, listed, (growing.slot_eq old (View.mem_slots_of_listing listed)).symm⟩
    exact carries.owns owns trivial
  · intro owns
    have carries : Carries vol v (v.grow last nc) fun _ => True := by
      refine ⟨fun _ _ _ _ _ => trivial, ?_⟩
      intro owner d ds pos before _ _ links listed live _
      obtain ⟨relinks, same⟩ := growing.carry sane formed before links
      exact ⟨_, relinks, same ▸ listed, growing.slot_eq links (View.mem_slots_of_listing listed)⟩
    exact carries.owns owns trivial

end Grow

variable {ds : List Nat} {owner : Option Pos} {d : Nat} {pos : Pos} {cs : List Nat}

theorem Sound.grow (sane : Sane vol) {loose : List Nat} {last nc : Nat} (sound : Sound vol v loose)
    (growing : Growing vol v owner d ds last nc) (fixed : nc ∉ loose) : Sound vol (v.grow last nc) loose := by
  have formed := sound.toFormed
  have back : ∀ {other isDir start}, Owns vol (v.grow last nc) other isDir start → Owns vol v other isDir start :=
    fun owns => (growing.owns_iff sane formed).mp owns
  constructor
  · constructor
    · intro other isDir start owns
      rcases sound.chained (back owns) with empty | ⟨inside, cs, links⟩
      · exact .inl empty
      · exact .inr ⟨inside, _, (growing.carry sane formed (back owns) links).1⟩
    · intro one two isDir otherDir start from_ es fs owns again links relinks differ c member too
      obtain ⟨cs, old, rfl⟩ := growing.carry_back sane formed (back owns) links
      obtain ⟨bs, older, rfl⟩ := growing.carry_back sane formed (back again) relinks
      rcases mem_growChain.mp member with first | ⟨isOwner, rfl⟩
      · rcases mem_growChain.mp too with second | ⟨_, rfl⟩
        · exact sound.apart (back owns) (back again) old older differ c first second
        · exact growing.ne_of_mem old first rfl
      · rcases mem_growChain.mp too with second | ⟨alsoOwner, _⟩
        · exact growing.ne_of_mem older second rfl
        · exact differ (isOwner.trans alsoOwner.symm)
    · intro other e es p q owns links first second visible shown same
      obtain ⟨cs, old, rfl⟩ := growing.carry_back sane formed (back owns) links
      rw [(growing.carry sane formed (back owns) old).2] at first second
      rw [growing.slot_eq old (View.mem_slots_of_listing first)] at visible same
      rw [growing.slot_eq old (View.mem_slots_of_listing second)] at shown same
      exact sound.unique (back owns) old first second visible shown same
  · intro other e es owns links
    obtain ⟨cs, old, rfl⟩ := growing.carry_back sane formed (back owns) links
    have kept : (slots vol cs).Pairwise fun p q => (v.grow last nc).slot p 0 = 0 → (v.grow last nc).slot q 0 = 0 :=
      (sound.zeroTail (back owns) old).imp_of_mem fun {p q} first second tail => by
        rw [growing.slot_eq old first, growing.slot_eq old second]
        exact tail
    unfold growChain
    split
    next =>
      rw [slots_append]
      refine pairwise_append.mpr ⟨kept, ?_, fun p _ q new _ => grow_blank new⟩
      exact pairwise_of_forall_mem_list fun p _ q new _ => grow_blank new
    next => exact kept
  · intro c inside nonzero
    by_cases new : c = nc
    · refine .inr ⟨owner, true, d, _, (growing.owns_iff sane formed).mpr growing.owns,
        growing.links_grown sane, ?_⟩
      simp [new]
    · have before : v.fat c ≠ 0 := by
        by_cases tail : c = last
        · exact growing.links.fat_ne_zero (by simp [tail])
        · simpa only [View.grow, tail, new, if_false] using nonzero
      rcases sound.used inside before with free | ⟨other, isDir, start, cs, owns, links, member⟩
      · exact .inl free
      · exact .inr ⟨other, isDir, start, _, (growing.owns_iff sane formed).mpr owns,
          (growing.carry sane formed owns links).1, mem_growChain.mpr (.inl member)⟩
  · intro c other isDir start es free owns links member
    obtain ⟨cs, old, rfl⟩ := growing.carry_back sane formed (back owns) links
    rcases mem_growChain.mp member with first | ⟨_, rfl⟩
    · exact sound.unowned free (back owns) old first
    · exact fixed free

structure Entry (vol : Volume) (v : View) (owner : Option Pos) (d : Nat) (ds : List Nat) (pos : Pos) (cs : List Nat) :
    Prop where
  parent : Owns vol v owner true d
  links : v.Links vol d ds
  listed : pos ∈ v.listing vol ds
  live : Live (v.slot pos)
  chain : entryIsDir (v.slot pos) = false ∧ entryCluster (v.slot pos) = 0 ∧ cs = [] ∨
    v.Links vol (entryCluster (v.slot pos)) cs

theorem Entry.owns (entry : Entry vol v owner d ds pos cs) :
    Owns vol v (some pos) (entryIsDir (v.slot pos)) (entryCluster (v.slot pos)) :=
  .entry entry.parent entry.links entry.listed entry.live

section Remove

variable {owner : Option Pos} {d : Nat} {ds cs : List Nat} {pos : Pos} {mark : Mem}
  (sane : Sane vol) (entry : Entry vol v owner d ds pos cs)
  (bare : entryIsDir (v.slot pos) = true → ∀ q ∈ v.listing vol cs, ¬Live (v.slot q))
  (short : ∀ byte, 32 ≤ byte → mark byte = 0) (deleted : mark 0 = 0xE5) {start : Nat} {isDir : Bool}

include sane entry in
theorem Entry.chain_eq {es : List Nat} (owns : Owns vol v (some pos) isDir start) (links : v.Links vol start es) :
    es = cs := by
  obtain rfl := owns.entry_inv.2.1
  rcases entry.chain with ⟨_, zero, _⟩ | chain
  · rw [zero] at links
    exact (not_links_zero links).elim
  · exact links.unique sane.exclusive chain

include short deleted

theorem removed_hidden : entryHidden ((v.setSlot pos mark).slot pos) = true := by
  rw [View.setSlot_slot v pos short]
  simp [entryHidden, deleted]

include entry

theorem Entry.removed_unused (q : Pos) : (v.setSlot pos mark).slot q 0 = 0 ↔ v.slot q 0 = 0 := by
  by_cases here : q = pos
  · subst here
    have before := View.first_ne_zero_of_listing entry.listed
    rw [View.setSlot_slot v q short, deleted]
    simp [before]
  · rw [View.setSlot_slot_ne v mark here]

theorem Entry.removed_listing (es : List Nat) : (v.setSlot pos mark).listing vol es = v.listing vol es :=
  View.listing_congr fun q _ => entry.removed_unused short deleted q

theorem Entry.removed_back {other : Option Pos} (owns : Owns vol (v.setSlot pos mark) other isDir start) :
    Owns vol v other isDir start ∧ other ≠ some pos := by
  constructor
  · have carries : Carries vol (v.setSlot pos mark) v fun _ => True := by
      refine ⟨fun _ _ _ _ _ => trivial, ?_⟩
      intro other e es q _ _ _ links listed live _
      have away : q ≠ pos := by
        rintro rfl
        exact absurd live.1 (by rw [removed_hidden short deleted]; simp)
      rw [entry.removed_listing short deleted] at listed
      exact ⟨es, links, listed, (View.setSlot_slot_ne v mark away).symm⟩
    exact carries.owns owns trivial
  · rintro rfl
    exact absurd owns.entry_inv.2.2.1.1 (by rw [removed_hidden short deleted]; simp)

include sane bare

theorem Entry.removed_owns {other : Option Pos} (owns : Owns vol v other isDir start) (away : other ≠ some pos) :
    Owns vol (v.setSlot pos mark) other isDir start := by
  have carries : Carries vol v (v.setSlot pos mark) fun other => other ≠ some pos := by
    constructor
    · intro other e es q owns links listed live _ same
      subst same
      have isDir := owns.entry_inv.1
      obtain rfl := entry.chain_eq sane owns links
      exact bare isDir.symm q listed live
    · intro other e es q owns _ _ links listed live away
      refine ⟨es, links, ?_, View.setSlot_slot_ne v mark fun same => away (congrArg some same)⟩
      rwa [entry.removed_listing short deleted]
  exact carries.owns owns away

end Remove

theorem Sound.remove (sane : Sane vol) {mark : Mem} (sound : Sound vol v []) (entry : Entry vol v owner d ds pos cs)
    (bare : entryIsDir (v.slot pos) = true → ∀ q ∈ v.listing vol cs, ¬Live (v.slot q))
    (short : ∀ byte, 32 ≤ byte → mark byte = 0) (deleted : mark 0 = 0xE5) : Sound vol (v.setSlot pos mark) cs := by
  have away : ∀ {q : Pos}, entryHidden ((v.setSlot pos mark).slot q) = false →
      (v.setSlot pos mark).slot q = v.slot q := by
    intro q visible
    refine View.setSlot_slot_ne v mark fun same => ?_
    rw [same, removed_hidden short deleted] at visible
    cases visible
  constructor
  · constructor
    · intro other isDir start owns
      exact sound.chained (entry.removed_back short deleted owns).1
    · intro one two isDir otherDir start from_ es fs owns again links relinks differ
      exact sound.apart (entry.removed_back short deleted owns).1 (entry.removed_back short deleted again).1
        links relinks differ
    · intro other e es p q owns links first second visible shown same
      rw [entry.removed_listing short deleted] at first second
      have left := away visible
      have right := away shown
      rw [left] at visible same
      rw [right] at shown same
      exact sound.unique (entry.removed_back short deleted owns).1 links first second visible shown same
  · intro other e es owns links
    refine (sound.zeroTail (entry.removed_back short deleted owns).1 links).imp fun {p q} tail unused => ?_
    exact (entry.removed_unused short deleted q).mpr (tail ((entry.removed_unused short deleted p).mp unused))
  · intro c inside nonzero
    rcases sound.used inside nonzero with none | ⟨other, isDir, start, es, owns, links, member⟩
    · cases none
    by_cases here : other = some pos
    · subst here
      exact .inl (entry.chain_eq sane owns links ▸ member)
    · exact .inr ⟨other, isDir, start, es, entry.removed_owns sane bare short deleted owns here, links, member⟩
  · intro c other isDir start es free owns links member
    obtain ⟨before, here⟩ := entry.removed_back short deleted owns
    rcases entry.chain with ⟨_, _, rfl⟩ | chain
    · cases free
    · exact sound.apart entry.owns before chain links (Ne.symm here) c free member

/-- A slot to which a new entry may go: it is free, and every slot before it is in use. -/
structure Vacant (vol : Volume) (v : View) (ds : List Nat) (pos : Pos) : Prop where
  free : v.slot pos 0 = 0 ∨ v.slot pos 0 = 0xE5
  place : ∃ before after, slots vol ds = before ++ pos :: after ∧ ∀ q ∈ before, v.slot q 0 ≠ 0

theorem Vacant.hidden (vacant : Vacant vol v ds pos) (used : v.slot pos 0 ≠ 0) : entryHidden (v.slot pos) = true := by
  rcases vacant.free with unused | deleted
  · exact absurd unused used
  · simp [entryHidden, deleted]

theorem Vacant.mem (vacant : Vacant vol v ds pos) : pos ∈ slots vol ds := by
  obtain ⟨before, after, split, _⟩ := vacant.place
  simp [split]

/-- A new entry for a vacant slot, with the loose clusters that it is to own. -/
structure Insertion (vol : Volume) (v : View) (owner : Option Pos) (d : Nat) (ds : List Nat) (pos : Pos) (entry : Mem)
    (cs : List Nat) : Prop where
  parent : Owns vol v owner true d
  links : v.Links vol d ds
  vacant : Vacant vol v ds pos
  fresh : ∀ q ∈ v.listing vol ds, entryHidden (v.slot q) = false → entryName (v.slot q) ≠ entryName entry
  short : ∀ byte, 32 ≤ byte → entry byte = 0
  used : entry 0 ≠ 0
  live : Live entry
  chain : entryIsDir entry = false ∧ entryCluster entry = 0 ∧ cs = [] ∨
    Inside vol (entryCluster entry) ∧ v.Links vol (entryCluster entry) cs
  bare : entryIsDir entry = true → ∀ q ∈ v.listing vol cs, ¬Live (v.slot q)
  named : entryIsDir entry = true → ∀ p ∈ v.listing vol cs, ∀ q ∈ v.listing vol cs,
    entryName (v.slot p) = entryName (v.slot q) → p = q
  tail : entryIsDir entry = true → (slots vol cs).Pairwise fun p q => v.slot p 0 = 0 → v.slot q 0 = 0

section Insert

variable {owner : Option Pos} {d : Nat} {ds cs : List Nat} {pos : Pos} {entry : Mem}
  (sane : Sane vol) (sound : Sound vol v cs) (insertion : Insertion vol v owner d ds pos entry cs)
include insertion

theorem Insertion.slot_eq : (v.setSlot pos entry).slot pos = entry := View.setSlot_slot v pos insertion.short

theorem Insertion.more (q : Pos) (used : v.slot q 0 ≠ 0) : (v.setSlot pos entry).slot q 0 ≠ 0 := by
  by_cases here : q = pos
  · subst here
    rw [insertion.slot_eq]
    exact insertion.used
  · rwa [View.setSlot_slot_ne v entry here]

variable {other : Option Pos} {isDir : Bool} {start : Nat} {es : List Nat} {q : Pos} {e : Nat}

theorem Insertion.ne_owner (owns : Owns vol v other isDir start) : other ≠ some pos := by
  rintro rfl
  obtain ⟨_, _, live, used⟩ := owns.entry_inv
  exact absurd live.1 (by rw [insertion.vacant.hidden used]; simp)

theorem Insertion.listed : pos ∈ (v.setSlot pos entry).listing vol ds := by
  obtain ⟨before, after, split, earlier⟩ := insertion.vacant.place
  refine View.mem_listing.mpr ⟨before, after, split, ?_, fun q member => insertion.more q (earlier q member)⟩
  rw [insertion.slot_eq]
  exact insertion.used

theorem Insertion.owns_old (owns : Owns vol v other isDir start) :
    Owns vol (v.setSlot pos entry) other isDir start := by
  have carries : Carries vol v (v.setSlot pos entry) fun other => other ≠ some pos := by
    refine ⟨fun owns _ _ _ _ => insertion.ne_owner owns, ?_⟩
    intro other e es q _ _ _ links listed live away
    exact ⟨es, links, View.listing_mono insertion.more listed,
      View.setSlot_slot_ne v entry fun same => away (congrArg some same)⟩
  exact carries.owns owns (insertion.ne_owner owns)

theorem Insertion.owns_new : Owns vol (v.setSlot pos entry) (some pos) (entryIsDir entry) (entryCluster entry) := by
  have owns := Owns.entry (insertion.owns_old insertion.parent) insertion.links insertion.listed
    (by rw [insertion.slot_eq]; exact insertion.live)
  rwa [insertion.slot_eq] at owns

include sane in
theorem Insertion.chain_eq (owns : Owns vol (v.setSlot pos entry) (some pos) isDir start)
    (links : v.Links vol start es) : es = cs := by
  obtain rfl := owns.entry_inv.2.1
  rw [insertion.slot_eq] at links
  rcases insertion.chain with ⟨_, zero, _⟩ | ⟨_, chain⟩
  · rw [zero] at links
    exact (not_links_zero links).elim
  · exact links.unique sane.exclusive chain

include sound

theorem Insertion.ne_of_chain (member : q ∈ slots vol cs) : q ≠ pos := by
  rintro rfl
  exact sound.unowned (mem_slots.mp member).1 insertion.parent insertion.links (mem_slots.mp insertion.vacant.mem).1

theorem Insertion.listing_chain : (v.setSlot pos entry).listing vol cs = v.listing vol cs :=
  View.listing_congr fun q member => by
    rw [View.setSlot_slot_ne v entry (insertion.ne_of_chain sound member)]

omit insertion in
theorem listed_before_setSlot (owns : Owns vol v other true e) (links : v.Links vol e es)
    (listed : q ∈ (v.setSlot pos entry).listing vol es) (away : q ≠ pos) : q ∈ v.listing vol es := by
  obtain ⟨before, after, split, here, earlier⟩ := View.mem_listing.mp listed
  rw [View.setSlot_slot_ne v entry away] at here
  refine View.mem_listing.mpr ⟨before, after, split, here, fun r member unused => ?_⟩
  have tail := sound.zeroTail owns links
  rw [split] at tail
  exact here ((pairwise_append.mp tail).2.2 r member q mem_cons_self unused)

include sane

theorem Insertion.back (owns : Owns vol (v.setSlot pos entry) other isDir start) (away : other ≠ some pos) :
    Owns vol v other isDir start := by
  have carries : Carries vol (v.setSlot pos entry) v fun other => other ≠ some pos := by
    constructor
    · intro other e es q owns links listed live notNew same
      subst same
      have isDir := owns.entry_inv.1
      rw [insertion.slot_eq] at isDir
      obtain rfl := insertion.chain_eq sane owns links
      have away := insertion.ne_of_chain sound (View.mem_slots_of_listing listed)
      rw [insertion.listing_chain sound] at listed
      rw [View.setSlot_slot_ne v entry away] at live
      exact insertion.bare isDir.symm q listed live
    · intro other e es q _ owns _ links listed live notNew
      have away : q ≠ pos := fun same => notNew (congrArg some same)
      exact ⟨es, links, listed_before_setSlot sound owns links listed away, (View.setSlot_slot_ne v entry away).symm⟩
  exact carries.owns owns away

theorem Insertion.chain_of_mem (owns : Owns vol v other isDir e) (links : v.Links vol e es)
    (member : pos ∈ slots vol es) : es = ds := by
  obtain rfl := sound.same_owner owns insertion.parent links insertion.links (mem_slots.mp member).1
    (mem_slots.mp insertion.vacant.mem).1
  obtain rfl := owns.start_eq insertion.parent
  exact links.unique sane.exclusive insertion.links

theorem Insertion.unique {p : Pos} (owns : Owns vol v other true e) (links : v.Links vol e es)
    (first : p ∈ (v.setSlot pos entry).listing vol es) (second : q ∈ (v.setSlot pos entry).listing vol es)
    (visible : entryHidden ((v.setSlot pos entry).slot p) = false)
    (shown : entryHidden ((v.setSlot pos entry).slot q) = false)
    (same : entryName ((v.setSlot pos entry).slot p) = entryName ((v.setSlot pos entry).slot q)) : p = q := by
  -- A second entry with the new name would have been in the directory before.
  have clash : ∀ {r : Pos}, pos ∈ (v.setSlot pos entry).listing vol es → r ∈ (v.setSlot pos entry).listing vol es →
      entryHidden ((v.setSlot pos entry).slot r) = false → r ≠ pos →
      entryName ((v.setSlot pos entry).slot r) ≠ entryName entry := by
    intro r here there visible away
    obtain rfl := insertion.chain_of_mem sane sound owns links (View.mem_slots_of_listing here)
    have before := listed_before_setSlot sound owns links there away
    rw [View.setSlot_slot_ne v entry away] at visible ⊢
    exact insertion.fresh r before visible
  by_cases left : p = pos
  · subst left
    by_contra differ
    rw [insertion.slot_eq] at same
    exact clash first second shown (Ne.symm differ) same.symm
  · by_cases right : q = pos
    · subst right
      rw [insertion.slot_eq] at same
      exact absurd same (clash second first visible left)
    · have older := listed_before_setSlot sound owns links first left
      have newer := listed_before_setSlot sound owns links second right
      rw [View.setSlot_slot_ne v entry left] at visible same
      rw [View.setSlot_slot_ne v entry right] at shown same
      exact sound.unique owns links older newer visible shown same

theorem Insertion.zeroTail (owns : Owns vol v other true e) (links : v.Links vol e es) :
    (slots vol es).Pairwise fun p q =>
      (v.setSlot pos entry).slot p 0 = 0 → (v.setSlot pos entry).slot q 0 = 0 := by
  have old := sound.zeroTail owns links
  by_cases member : pos ∈ slots vol es
  · obtain rfl := insertion.chain_of_mem sane sound owns links member
    obtain ⟨before, after, split, earlier⟩ := insertion.vacant.place
    have distinct : (slots vol es).Nodup := slots_nodup (links.nodup sane.exclusive)
    rw [split] at old distinct ⊢
    have later : pos ∉ after := (nodup_cons.mp (nodup_append.mp distinct).2.1).1
    have used : (v.setSlot pos entry).slot pos 0 ≠ 0 := by rw [insertion.slot_eq]; exact insertion.used
    refine pairwise_append.mpr ⟨?_, pairwise_cons.mpr ⟨fun q _ unused => absurd unused used, ?_⟩, ?_⟩
    · exact pairwise_of_forall_mem_list fun p member q _ unused =>
        absurd unused (insertion.more p (earlier p member))
    · refine (pairwise_cons.mp (pairwise_append.mp old).2.1).2.imp_of_mem fun {p q} first second tail => ?_
      have left : p ≠ pos := fun same => later (same ▸ first)
      have right : q ≠ pos := fun same => later (same ▸ second)
      rwa [View.setSlot_slot_ne v entry left, View.setSlot_slot_ne v entry right]
    · exact fun p member q _ unused => absurd unused (insertion.more p (earlier p member))
  · refine old.imp_of_mem fun {p q} first second tail => ?_
    have left : p ≠ pos := fun same => member (same ▸ first)
    have right : q ≠ pos := fun same => member (same ▸ second)
    rwa [View.setSlot_slot_ne v entry left, View.setSlot_slot_ne v entry right]

end Insert

theorem Sound.insert (sane : Sane vol) {entry : Mem} (sound : Sound vol v cs)
    (insertion : Insertion vol v owner d ds pos entry cs) : Sound vol (v.setSlot pos entry) [] := by
  constructor
  · constructor
    · intro other isDir start owns
      by_cases here : other = some pos
      · subst here
        obtain ⟨rfl, rfl, _, _⟩ := owns.entry_inv
        rw [insertion.slot_eq]
        rcases insertion.chain with ⟨file, zero, _⟩ | ⟨inside, chain⟩
        · exact .inl ⟨file, zero⟩
        · exact .inr ⟨inside, cs, chain⟩
      · exact sound.chained (insertion.back sane sound owns here)
    · intro one two isDir otherDir start from_ es fs owns again links relinks differ c member too
      by_cases first : one = some pos
      · subst first
        obtain rfl := insertion.chain_eq sane owns links
        exact sound.unowned member (insertion.back sane sound again (Ne.symm differ)) relinks too
      · by_cases second : two = some pos
        · subst second
          obtain rfl := insertion.chain_eq sane again relinks
          exact sound.unowned too (insertion.back sane sound owns first) links member
        · exact sound.apart (insertion.back sane sound owns first) (insertion.back sane sound again second)
            links relinks differ c member too
    · intro other e es p q owns links first second visible shown same
      by_cases here : other = some pos
      · subst here
        have isDir := owns.entry_inv.1
        rw [insertion.slot_eq] at isDir
        obtain rfl := insertion.chain_eq sane owns links
        rw [insertion.listing_chain sound] at first second
        rw [View.setSlot_slot_ne v entry (insertion.ne_of_chain sound (View.mem_slots_of_listing first)),
          View.setSlot_slot_ne v entry (insertion.ne_of_chain sound (View.mem_slots_of_listing second))] at same
        exact insertion.named isDir.symm p first q second same
      · exact insertion.unique sane sound (insertion.back sane sound owns here) links first second visible shown same
  · intro other e es owns links
    by_cases here : other = some pos
    · subst here
      have isDir := owns.entry_inv.1
      rw [insertion.slot_eq] at isDir
      obtain rfl := insertion.chain_eq sane owns links
      refine (insertion.tail isDir.symm).imp_of_mem fun {p q} first second tail => ?_
      rw [View.setSlot_slot_ne v entry (insertion.ne_of_chain sound first),
        View.setSlot_slot_ne v entry (insertion.ne_of_chain sound second)]
      exact tail
    · exact insertion.zeroTail sane sound (insertion.back sane sound owns here) links
  · intro c inside nonzero
    refine .inr ?_
    rcases sound.used inside nonzero with free | ⟨other, isDir, start, es, owns, links, member⟩
    · rcases insertion.chain with ⟨_, _, rfl⟩ | ⟨_, chain⟩
      · cases free
      · exact ⟨_, _, _, cs, insertion.owns_new, chain, free⟩
    · exact ⟨other, isDir, start, es, insertion.owns_old owns, links, member⟩
  · intro c other isDir start es free
    cases free

end GWKernel.Fat
