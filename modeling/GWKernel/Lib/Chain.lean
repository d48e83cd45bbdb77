import Mathlib

/-! Chains through a successor table: from a start, along `next`, through valid
places only, to the first mark that stops the walk. -/

namespace GWKernel.Lib
open List

variable {α : Type} {next : α → α} {inside stop : α → Prop}

inductive Chain (next : α → α) (inside stop : α → Prop) : α → List α → Prop where
  | done {mark : α} (ends : stop mark) : Chain next inside stop mark []
  | link {place : α} {rest : List α} (valid : inside place) (tail : Chain next inside stop (next place) rest) :
      Chain next inside stop place (place :: rest)

namespace Chain

variable {start : α} {places : List α}

theorem inside_of_mem {place : α} (chain : Chain next inside stop start places) (member : place ∈ places) :
    inside place := by
  induction chain with
  | done _ => cases member
  | link valid _ ih =>
    rcases mem_cons.mp member with rfl | later
    · exact valid
    · exact ih later

theorem after {start place : α} {before later : List α}
    (chain : Chain next inside stop start (before ++ place :: later)) :
    Chain next inside stop (next place) later := by
  induction before generalizing start with
  | nil =>
    cases chain with
    | link _ tail => exact tail
  | cons first before ih =>
    cases chain with
    | link _ tail => exact ih tail

theorem next_of_mem {place : α} (chain : Chain next inside stop start places) (member : place ∈ places) :
    stop (next place) ∨ inside (next place) := by
  obtain ⟨before, later, rfl⟩ := append_of_mem member
  cases chain.after with
  | done ends => exact .inl ends
  | link valid _ => exact .inr valid

section Exclusive

variable (exclusive : ∀ place, inside place → ¬stop place)
include exclusive

variable {start : α}

theorem unique {left right : List α} (chain : Chain next inside stop start left)
    (other : Chain next inside stop start right) : left = right := by
  induction chain generalizing right with
  | done ends =>
    cases other with
    | done _ => rfl
    | link valid _ => exact absurd ends (exclusive _ valid)
  | link valid _ ih =>
    cases other with
    | done ends => exact absurd ends (exclusive _ valid)
    | link _ tail => rw [ih tail]

theorem nodup {places : List α} (chain : Chain next inside stop start places) : places.Nodup := by
  induction chain with
  | done _ => exact nodup_nil
  | @link place rest valid tail ih =>
    refine nodup_cons.mpr ⟨fun again => ?_, ih⟩
    -- A second visit would walk the same way again, through fewer places.
    obtain ⟨before, later, rfl⟩ := append_of_mem again
    have same := unique exclusive tail.after tail
    have sizes := congrArg List.length same
    simp only [length_append, length_cons] at sizes
    omega

theorem ne_nil {places : List α} (chain : Chain next inside stop start places) (valid : inside start) :
    places ≠ [] := by
  rintro rfl
  cases chain with
  | done ends => exact exclusive start valid ends

end Exclusive

theorem congr {other : α → α} (chain : Chain next inside stop start places)
    (same : ∀ place ∈ places, other place = next place) : Chain other inside stop start places := by
  induction chain with
  | done ends => exact .done ends
  | @link place rest valid tail ih =>
    refine .link valid ?_
    rw [same place mem_cons_self]
    exact ih fun later member => same later (mem_cons_of_mem _ member)

theorem extend {last : α} {more : List α} {other : α → α} (chain : Chain next inside stop start (places ++ [last]))
    (same : ∀ place ∈ places, other place = next place) (tail : Chain other inside stop (other last) more) :
    Chain other inside stop start (places ++ last :: more) := by
  induction places generalizing start with
  | nil =>
    cases chain with
    | link valid _ => exact .link valid tail
  | cons first places ih =>
    cases chain with
    | link valid rest =>
      refine .link valid ?_
      rw [same first mem_cons_self]
      exact ih rest fun place member => same place (mem_cons_of_mem _ member)

end Chain

variable {next other : α → Option α} {start : Option α} {items : List α}

inductive Links (next : α → Option α) : Option α → List α → Prop where
  | done : Links next none []
  | link {item : α} {rest : List α} (tail : Links next (next item) rest) : Links next (some item) (item :: rest)

namespace Links

theorem unique {again : List α} (links : Links next start items) (more : Links next start again) : items = again := by
  induction links generalizing again with
  | done =>
    cases more with
    | done => rfl
  | link _ ih =>
    cases more with
    | link tail => rw [ih tail]

theorem tail {item : α} {rest : List α} (links : Links next start (item :: rest)) : Links next (next item) rest := by
  cases links with
  | link tail => exact tail

theorem after {before later : List α} {item : α} (links : Links next start (before ++ item :: later)) :
    Links next (next item) later := by
  induction before generalizing start with
  | nil => exact links.tail
  | cons first before ih => exact ih links.tail

theorem nodup (links : Links next start items) : items.Nodup := by
  induction links with
  | done => exact nodup_nil
  | @link item rest tail ih =>
    refine nodup_cons.mpr ⟨fun again => ?_, ih⟩
    obtain ⟨before, later, rfl⟩ := append_of_mem again
    have sizes := congrArg List.length (unique tail.after tail)
    simp only [length_append, length_cons] at sizes
    omega

theorem congr (links : Links next start items) (same : ∀ item ∈ items, other item = next item) :
    Links other start items := by
  induction links with
  | done => exact .done
  | @link item rest tail ih =>
    refine .link ?_
    rw [same item mem_cons_self]
    exact ih fun later member => same later (mem_cons_of_mem _ member)

theorem extend {last : α} {more : List α} (links : Links next start (items ++ [last]))
    (same : ∀ item ∈ items, other item = next item) (tail : Links other (other last) more) :
    Links other start (items ++ last :: more) := by
  induction items generalizing start with
  | nil =>
    cases links with
    | link _ => exact .link tail
  | cons first items ih =>
    cases links with
    | link rest =>
      refine .link ?_
      rw [same first mem_cons_self]
      exact ih rest fun item member => same item (mem_cons_of_mem _ member)

theorem start_eq (links : Links next start items) : start = items.head? := by
  cases links with
  | done => rfl
  | link => rfl

theorem next_eq {begin : Option α} (links : Links next start items) (again : Links other begin items) {item : α}
    (member : item ∈ items) : next item = other item := by
  obtain ⟨before, later, rfl⟩ := append_of_mem member
  rw [links.after.start_eq, again.after.start_eq]

end Links

end GWKernel.Lib
