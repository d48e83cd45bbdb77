import Mathlib

/-! A list cut at separators, into pieces of limited length. -/

namespace GWKernel.Lib
open List

variable {α : Type} {separates : α → Bool} {limit : Nat} {text : List α}

/-- What stands between separators, in pieces of at most `limit` items. -/
def cut (separates : α → Bool) (limit : Nat) : Nat → List α → List (List α)
  | 0, _ => []
  | steps + 1, text =>
    match text.dropWhile separates with
    | [] => []
    | item :: rest =>
      let piece := ((item :: rest).takeWhile fun item => !separates item).take limit
      piece :: cut separates limit steps ((item :: rest).drop piece.length)

def firstPiece (separates : α → Bool) (limit : Nat) (text : List α) : List α :=
  ((text.dropWhile separates).takeWhile fun item => !separates item).take limit

def otherPieces (separates : α → Bool) (limit : Nat) (text : List α) : List α :=
  (text.dropWhile separates).drop (firstPiece separates limit text).length

theorem cut_succ (some : text.dropWhile separates ≠ []) (steps : Nat) :
    cut separates limit (steps + 1) text =
      firstPiece separates limit text :: cut separates limit steps (otherPieces separates limit text) := by
  obtain ⟨item, rest, is⟩ := exists_cons_of_ne_nil some
  rw [otherPieces, firstPiece, cut, is]

theorem cut_separators (steps : Nat) (none : text.dropWhile separates = []) : cut separates limit steps text = [] := by
  cases steps with
  | zero => rfl
  | succ steps => rw [cut, none]

theorem firstPiece_ne_nil (positive : 0 < limit) (some : text.dropWhile separates ≠ []) :
    firstPiece separates limit text ≠ [] := by
  obtain ⟨item, rest, is⟩ := exists_cons_of_ne_nil some
  have plain : separates item = false := by
    have := head?_dropWhile_not separates text
    rw [is] at this
    simpa using this
  rw [firstPiece, is, takeWhile_cons_of_pos (by simp [plain]), ← length_pos_iff, length_take,
    length_cons]
  omega

theorem otherPieces_length (positive : 0 < limit) (some : text.dropWhile separates ≠ []) :
    (otherPieces separates limit text).length < (text.dropWhile separates).length := by
  have moves := length_pos_iff.mpr (firstPiece_ne_nil positive some)
  have left := length_pos_iff.mpr some
  rw [otherPieces, length_drop]
  omega

theorem cut_enough (positive : 0 < limit) {steps more : Nat} (enough : (text.dropWhile separates).length ≤ steps)
    (also : (text.dropWhile separates).length ≤ more) : cut separates limit steps text = cut separates limit more text := by
  induction steps generalizing text more with
  | zero =>
    have none := length_eq_zero_iff.mp (Nat.le_zero.mp enough)
    rw [cut_separators _ none, cut_separators _ none]
  | succ steps ih =>
    by_cases none : text.dropWhile separates = []
    · rw [cut_separators _ none, cut_separators _ none]
    · have shrinks := otherPieces_length positive none
      have rest := (dropWhile_sublist (l := otherPieces separates limit text) separates).length_le
      obtain ⟨fewer, rfl⟩ : ∃ fewer, more = fewer + 1 := ⟨more - 1, by omega⟩
      rw [cut_succ none, cut_succ none]
      exact congrArg _ (ih (by omega) (by omega))

theorem cut_cons (positive : 0 < limit) (some : text.dropWhile separates ≠ []) : cut separates limit text.length text =
    firstPiece separates limit text ::
      cut separates limit (otherPieces separates limit text).length (otherPieces separates limit text) := by
  have shrinks := otherPieces_length positive some
  have whole := (dropWhile_sublist (l := text) separates).length_le
  have rest := (dropWhile_sublist (l := otherPieces separates limit text) separates).length_le
  obtain ⟨length, is⟩ : ∃ length, text.length = length + 1 := ⟨text.length - 1, by omega⟩
  rw [is, cut_succ some, cut_enough positive rest (show _ ≤ length by omega)]

theorem cut_spec (positive : 0 < limit) {steps : Nat} {piece : List α} (member : piece ∈ cut separates limit steps text) :
    piece ≠ [] ∧ ∀ item ∈ piece, item ∈ text := by
  induction steps generalizing text with
  | zero => cases member
  | succ steps ih =>
    by_cases none : text.dropWhile separates = []
    · rw [cut_separators _ none] at member
      cases member
    · rw [cut_succ none] at member
      rcases mem_cons.mp member with rfl | later
      · refine ⟨firstPiece_ne_nil positive none, fun item inside => ?_⟩
        exact (dropWhile_sublist _).mem ((takeWhile_sublist _).mem (mem_of_mem_take inside))
      · obtain ⟨nonempty, inside⟩ := ih later
        exact ⟨nonempty, fun item here => (dropWhile_sublist _).mem (mem_of_mem_drop (inside item here))⟩

section Join

variable {rest : List α} {item : α} (separator : separates item = true)
include separator

theorem firstPiece_join (some : text.dropWhile separates ≠ []) :
    firstPiece separates limit (text ++ item :: rest) = firstPiece separates limit text := by
  unfold firstPiece
  rw [dropWhile_append, if_neg (by simpa using some), takeWhile_append,
    takeWhile_cons_of_neg (by simp [separator]), append_nil]
  split
  next whole => rw [( takeWhile_prefix _).eq_of_length whole]
  next => rfl

theorem otherPieces_join (some : text.dropWhile separates ≠ []) :
    otherPieces separates limit (text ++ item :: rest) = otherPieces separates limit text ++ item :: rest := by
  have short : (firstPiece separates limit text).length ≤ (text.dropWhile separates).length :=
    Nat.le_trans (length_take_le' _ _) (takeWhile_sublist _).length_le
  unfold otherPieces
  rw [firstPiece_join separator some, dropWhile_append, if_neg (by simpa using some),
    drop_append_of_le_length short]

theorem cut_join (positive : 0 < limit) (text rest : List α) :
    cut separates limit (text ++ item :: rest).length (text ++ item :: rest) =
      cut separates limit text.length text ++ cut separates limit rest.length rest := by
  by_cases none : text.dropWhile separates = []
  · rw [cut_separators _ none, nil_append]
    have skipped : (text ++ item :: rest).dropWhile separates = rest.dropWhile separates := by
      rw [dropWhile_append, none, dropWhile_cons_of_pos separator]
      rfl
    by_cases ended : rest.dropWhile separates = []
    · rw [cut_separators _ ended, cut_separators _ (skipped.trans ended)]
    · rw [cut_cons positive ended, cut_cons positive (by rwa [skipped]), otherPieces, otherPieces, firstPiece, firstPiece,
        skipped]
  · have shrinks := otherPieces_length positive none
    have whole := (dropWhile_sublist (l := text) separates).length_le
    have some : (text ++ item :: rest).dropWhile separates ≠ [] := by
      rw [dropWhile_append, if_neg (by simpa using none)]
      exact append_ne_nil_of_left_ne_nil none _
    rw [cut_cons positive some, cut_cons positive none, firstPiece_join separator none, otherPieces_join separator none,
      cut_join positive (otherPieces separates limit text) rest, cons_append]
termination_by text.length

end Join

section Plain

variable (some : text ≠ []) (plain : ∀ item ∈ text, separates item = false)
include some plain

theorem cut_plain (positive : 0 < limit) : cut separates limit text.length text =
    text.take limit :: cut separates limit (text.drop limit).length (text.drop limit) := by
  obtain ⟨item, rest, rfl⟩ := exists_cons_of_ne_nil some
  have kept : (item :: rest).dropWhile separates = item :: rest :=
    dropWhile_cons_of_neg (by simp [plain item mem_cons_self])
  have whole : (item :: rest).takeWhile (fun item => !separates item) = item :: rest :=
    takeWhile_eq_self_iff.mpr fun item member => by simp [plain item member]
  have first : firstPiece separates limit (item :: rest) = (item :: rest).take limit := by rw [firstPiece, kept, whole]
  have other : otherPieces separates limit (item :: rest) = (item :: rest).drop limit := by
    rw [otherPieces, kept, first, length_take, ← drop_eq_drop_min]
  rw [cut_cons positive (by rw [kept]; exact some), first, other]

theorem cut_short (short : text.length ≤ limit) : cut separates limit text.length text = [text] := by
  rw [cut_plain some plain (Nat.lt_of_lt_of_le (length_pos_iff.mpr some) short), take_of_length_le short,
    drop_of_length_le short]
  rfl

end Plain

end GWKernel.Lib
