import GWKernel.Proofs.FatRoundTrip

/-! Calls that return -1. Nothing is undone, so the volume stays as it was only where there is room
for what a call makes or writes. -/

namespace GWKernel.Fat
open Lib

variable {vol : Volume} {v w : View}

theorem Resolves.fileAt (formed : Formed vol v) {path : List UInt8} {cl size : Nat}
    (resolves : Resolves vol v path (cl, size, false)) : ∃ pos cs, FileAt vol v path pos cs := by
  generalize leaf : (cl, size, false) = result at resolves
  cases resolves with
  | start _ => cases leaf
  | parent _ _ => cases leaf
  | @entry parent name owner ps pos _ target found =>
    have isFile : entryIsDir (v.slot pos) = false := (congrArg (fun leaf => leaf.2.2) leaf).symm
    rcases formed.chained (target.owns.found target.links found) with ⟨_, zero⟩ | ⟨_, cs, chain⟩
    · exact ⟨pos, [], ⟨parent, name, ps, target.walk, target.named, target.links, found⟩, isFile,
        .inl ⟨isFile, zero, rfl⟩⟩
    · exact ⟨pos, cs, ⟨parent, name, ps, target.walk, target.named, target.links, found⟩, isFile, .inr chain⟩

/-- Not a single free cluster left for a directory whose parent needs another one. -/
def RoomToMake (vol : Volume) (v : View) (path : List UInt8) : Prop :=
  ∀ parent name owner ps, Target vol v path parent name owner ps → v.lookup vol name ps = none →
    (slots vol ps).find? v.isFree = none → v.freeCount vol ≠ 1

/-- No cluster free at all, or enough for a new file and for its entry. -/
def RoomToCreate (vol : Volume) (v : View) (path data : List UInt8) : Prop :=
  ∀ parent name owner ps, Target vol v path parent name owner ps → v.lookup vol name ps = none →
    v.freeCount vol = 0 ∨ data.length ≤
      (v.freeCount vol - if (slots vol ps).find? v.isFree = none then 1 else 0) * (512 * vol.secPerCluster)

/-- Enough clusters for the new content of a file once the old ones are free, or none at
all to lose. -/
def RoomToReplace (vol : Volume) (v : View) (path data : List UInt8) : Prop :=
  ∀ parent name owner ps pos cs, Target vol v path parent name owner ps → v.lookup vol name ps = some pos →
    entryIsDir (v.slot pos) = false → ChainOf vol v (v.slot pos) cs →
    cs = [] ∧ v.freeCount vol = 0 ∨ data.length ≤ (v.freeAll cs).freeCount vol * (512 * vol.secPerCluster)

theorem View.freeCount_grow {last nc : Nat} (candidate : nc ∈ candidates vol) (free : v.fat nc = 0)
    (used : v.fat last ≠ 0) : (v.grow last nc).freeCount vol + 1 = v.freeCount vol := by
  rw [← View.freeCount_setFat candidate free (show 0x0FFFFFFF ≠ 0 by omega)]
  congr 1
  refine View.freeCount_congr fun c _ => ?_
  have positive := (inside_of_candidate candidate).1
  by_cases here : c = last
  · have differ : last ≠ nc := fun same => used (same ▸ free)
    simp [View.grow, View.setFat, here, differ, used]
    omega
  · simp [View.grow, View.setFat, here]

theorem Unlinked.failed {path : List UInt8} (unlinked : Unlinked vol v path false w) : w = v := by
  cases unlinked
  rfl

theorem Made.failed {path : List UInt8} (made : Made vol v path false w) (room : RoomToMake vol v path) : w = v := by
  cases made with
  | refused reason => rfl
  | @stranded parent nc name owner ps target missing candidate free slot =>
    cases slot with
    | full noFree exhausted =>
      have places : (slots vol ps).find? v.isFree = none := by
        rw [← noFree]
        refine List.find?_congr fun q member => ?_
        have other : q.cluster ≠ nc := fun same => target.links.fat_ne_zero (mem_slots.mp member).1 (same ▸ free)
        simp [View.isFree, View.slot, View.addDirectory, View.setDirectory, View.setFat, other]
      have one := View.freeCount_setFat candidate free (show 0x0FFFFFFF ≠ 0 by omega)
      have none : (v.setFat nc 0x0FFFFFFF).freeCount vol = 0 := View.freeCount_eq_zero.mpr exhausted
      exact absurd (by omega) (room _ _ _ _ target missing places)

theorem Wrote.unchanged {path data : List UInt8} (wrote : Wrote vol v path data none w) (create : RoomToCreate vol v path data)
    (replace : RoomToReplace vol v path data) : w = v := by
  cases wrote with
  | refused _ _ => rfl
  | @short parent name owner ps pos u w target prepared few untouched spent shrinks _ =>
    cases prepared with
    | @existing cs found isFile chain =>
      rcases replace _ _ _ _ _ _ target found isFile chain with ⟨rfl, none⟩ | enough
      · have same : v.freeAll [] = v := by simp [View.freeAll]
        rw [same] at untouched
        exact untouched none
      · exact absurd few (Nat.not_lt.mpr enough)
    | vacant missing slot =>
      have room := create _ _ _ _ target missing
      cases slot with
      | within found =>
        rcases room with none | enough
        · exact untouched none
        · simp only [found, reduceCtorEq, if_false, Nat.sub_zero] at enough
          exact absurd few (Nat.not_lt.mpr enough)
      | @grown before last nc noFree chain candidate free =>
        have used : v.fat last ≠ 0 := target.links.fat_ne_zero (by simp [chain])
        have count := View.freeCount_grow candidate free used
        rcases room with none | enough
        · omega
        · simp only [noFree, if_true, ← count, Nat.add_sub_cancel] at enough
          exact absurd few (Nat.not_lt.mpr enough)

end GWKernel.Fat
