import Mathlib

/-! A ring whose writer marks each entry with a bit that changes from lap to lap, so that the
reader sees whether the next cell has been written. -/

namespace GWKernel.Lib

def lap (depth n : Nat) : Bool := n / depth % 2 == 0

theorem lap_of_next {depth n later : Nat} (next : later / depth = n / depth + 1) : lap depth later = !lap depth n := by
  unfold lap
  rw [next]
  rcases Nat.mod_two_eq_zero_or_one (n / depth) with even | odd
  · simp [Nat.add_mod, even]
  · simp [Nat.add_mod, odd]

theorem lap_of_same {depth n later : Nat} (same : later / depth = n / depth) : lap depth later = lap depth n := by
  unfold lap
  rw [same]

theorem next_cell {depth : Nat} (n : Nat) (positive : 0 < depth) :
    n % depth + 1 = depth ∧ (n + 1) % depth = 0 ∧ lap depth (n + 1) = !lap depth n ∨
      n % depth + 1 < depth ∧ (n + 1) % depth = n % depth + 1 ∧ lap depth (n + 1) = lap depth n := by
  have split := Nat.div_add_mod n depth
  have small := Nat.mod_lt n positive
  by_cases last : n % depth + 1 = depth
  · obtain ⟨quotient, rest⟩ := (Nat.div_mod_unique positive (a := n + 1) (c := 0) (d := n / depth + 1)).mpr
      ⟨by rw [Nat.mul_succ]; omega, positive⟩
    exact .inl ⟨last, rest, lap_of_next quotient⟩
  · obtain ⟨quotient, rest⟩ := (Nat.div_mod_unique positive (a := n + 1) (c := n % depth + 1) (d := n / depth)).mpr
      ⟨by omega, by omega⟩
    exact .inr ⟨by omega, rest, lap_of_same quotient⟩

theorem prefix_next {α : Type} {read posted : List α} {entry : α} (order : read <+: posted)
    (next : posted[read.length]? = some entry) : read ++ [entry] <+: posted := by
  obtain ⟨rest, rfl⟩ := order
  rw [List.getElem?_append_right (Nat.le_refl _), Nat.sub_self] at next
  cases rest with
  | nil => cases next
  | cons first rest =>
    cases next
    exact ⟨rest, by simp⟩

/-- The entries `posted` have been written in turn, and the first `taken` read. A cell not reached
yet in this lap carries the other bit. -/
structure Ring {α : Type} (depth : Nat) (tag : α → Bool) (cells : Nat → α) (posted : List α) (taken : Nat) : Prop where
  positive : 0 < depth
  behind : taken ≤ posted.length
  room : posted.length - taken < depth
  tags : ∀ cell < depth, tag (cells cell) =
    if cell < posted.length % depth then lap depth posted.length else !lap depth posted.length
  unread : ∀ index, taken ≤ index → index < posted.length → posted[index]? = some (cells (index % depth))

namespace Ring

variable {α : Type} {depth taken : Nat} {tag : α → Bool} {cells : Nat → α} {posted : List α}

theorem start (positive : 0 < depth) (blank : ∀ cell < depth, tag (cells cell) = false) : Ring depth tag cells [] 0 := by
  refine ⟨positive, Nat.le_refl _, positive, fun cell inside => ?_, fun index _ below => absurd below (Nat.not_lt_zero _)⟩
  rw [blank cell inside]
  simp [lap]

theorem cells_differ {first second : Nat} (before : first < second) (near : second - first < depth) :
    first % depth ≠ second % depth := by
  intro same
  have whole := Nat.sub_mod_eq_zero_of_mod_eq same.symm
  rw [Nat.mod_eq_of_lt near] at whole
  omega

theorem post (ring : Ring depth tag cells posted taken) {entry : α} (marked : tag entry = lap depth posted.length)
    (space : posted.length + 1 - taken < depth) :
    Ring depth tag (Function.update cells (posted.length % depth) entry) (posted ++ [entry]) taken := by
  have length : (posted ++ [entry]).length = posted.length + 1 := by simp
  have positive := ring.positive
  have behind := ring.behind
  refine ⟨positive, by omega, by omega, fun cell inside => ?_, fun index above below => ?_⟩
  · have before := ring.tags cell inside
    rw [length]
    by_cases here : cell = posted.length % depth
    · rw [here, Function.update_self, marked]
      rcases next_cell posted.length positive with ⟨_, wraps, other⟩ | ⟨_, next, same⟩
      · rw [wraps, other, if_neg (Nat.not_lt_zero _), Bool.not_not]
      · rw [next, same, if_pos (Nat.lt_succ_self _)]
    · rw [Function.update_of_ne here, before]
      rcases next_cell posted.length positive with ⟨last, wraps, other⟩ | ⟨_, next, same⟩
      · rw [wraps, other, if_neg (Nat.not_lt_zero _), if_pos (by omega), Bool.not_not]
      · rw [next, same]
        exact if_congr (by omega) rfl rfl
  · rw [length] at below
    by_cases last : index = posted.length
    · rw [last, Function.update_self, List.getElem?_concat_length]
    · have older : index < posted.length := by omega
      rw [Function.update_of_ne (cells_differ older (by omega)), List.getElem?_append_left older]
      exact ring.unread index above older

theorem ready_iff (ring : Ring depth tag cells posted taken) :
    tag (cells (taken % depth)) = lap depth taken ↔ taken < posted.length := by
  have positive := ring.positive
  have behind := ring.behind
  have room := ring.room
  rw [ring.tags _ (Nat.mod_lt _ positive)]
  have splitTaken := Nat.div_add_mod taken depth
  have splitPosted := Nat.div_add_mod posted.length depth
  have small := Nat.mod_lt taken positive
  have smallPosted := Nat.mod_lt posted.length positive
  rcases Nat.lt_or_ge (taken / depth) (posted.length / depth) with later | notLater
  · -- The writer is one lap ahead, and has not come as far as the reader.
    have one : posted.length / depth = taken / depth + 1 := by
      by_contra more
      have two := Nat.mul_le_mul_left depth (show taken / depth + 2 ≤ posted.length / depth by omega)
      rw [Nat.mul_add] at two
      omega
    have ahead : ¬taken % depth < posted.length % depth := by
      rw [one, Nat.mul_succ] at splitPosted
      omega
    rw [if_neg ahead, lap_of_next one, Bool.not_not]
    refine iff_of_true rfl ?_
    rw [one, Nat.mul_succ] at splitPosted
    omega
  · have same : posted.length / depth = taken / depth :=
      Nat.le_antisymm notLater (Nat.div_le_div_right behind)
    rw [lap_of_same same]
    rw [same] at splitPosted
    split
    next => exact iff_of_true rfl (by omega)
    next => exact iff_of_false (by simp) (by omega)

theorem take (ring : Ring depth tag cells posted taken) (ready : taken < posted.length) :
    posted[taken]? = some (cells (taken % depth)) ∧ Ring depth tag cells posted (taken + 1) := by
  have room := ring.room
  exact ⟨ring.unread taken (Nat.le_refl _) ready, ring.positive, ready, by omega, ring.tags,
    fun index above below => ring.unread index (by omega) below⟩

end Ring
end GWKernel.Lib
