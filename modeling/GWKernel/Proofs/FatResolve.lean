import GWKernel.Proofs.FatAnswers
import GWKernel.Proofs.FatConsistency
import GWKernel.Proofs.FatPaths

/-! `resolve_full` against the fold over the components of a path. The two part ways at long
components, and at a dot name in the last place. -/

namespace GWKernel.Fat
open Lib List

/-- The fold: `.` stays, `..` goes to the root, every other component is looked up as a whole. -/
def foldParts (vol : Volume) (fuel : Nat) : Nat → List (List UInt8) → Io Resolution
  | cl, [] => pure (some (cl, 0, true))
  | cl, part :: rest =>
    if part = [0x2E] then foldParts vol fuel cl rest
    else if part = [0x2E, 0x2E] then foldParts vol fuel vol.rootCluster rest
    else do
      match ← dirFind vol fuel cl part with
      | none => pure none
      | some found =>
        if rest = [] then pure (some found.answer)
        else if found.isDir then foldParts vol fuel found.cluster rest
        else pure none

def Settles (vol : Volume) (disk : Nat → Mem) (parent : Nat) (name : List UInt8) (answer : Resolution) : Prop :=
  if name = [0x2E] then answer = some (parent, 0, true)
  else if name = [0x2E, 0x2E] then answer = some (vol.rootCluster, 0, true)
  else LooksUp vol disk parent name answer

abbrev Folds (vol : Volume) (disk : Nat → Mem) : Nat → List (List UInt8) → Resolution → Prop :=
  Follows vol disk (Settles vol disk)

variable {vol : Volume} {disk : Nat → Mem} {medium : Medium} {path : List UInt8}

variable {name : List UInt8} {answer : Resolution} {cl : Nat} {rest parts : List (List UInt8)} {part : List UInt8}

theorem settles_iff {parent : Nat} (named : name ≠ [0x2E] ∧ name ≠ [0x2E, 0x2E]) :
    Settles vol disk parent name answer ↔ LooksUp vol disk parent name answer := by
  rw [Settles, if_neg named.1, if_neg named.2]

theorem folds_nil : Folds vol disk cl [] answer ↔ answer = some (cl, 0, true) := by
  rw [Folds, follows_nil, settles_iff (by simp), LooksUp, if_pos rfl]

theorem folds_here : Folds vol disk cl ([0x2E] :: rest) answer ↔ Folds vol disk cl rest answer := by
  by_cases last : rest = []
  · subst last
    rw [folds_nil, Folds, follows_single, Settles, if_pos rfl]
  · exact (Leads.here (.done cl)).follows_iff last

theorem folds_up : Folds vol disk cl ([0x2E, 0x2E] :: rest) answer ↔ Folds vol disk vol.rootCluster rest answer := by
  by_cases last : rest = []
  · subst last
    rw [folds_nil, Folds, follows_single, Settles, if_neg (by decide), if_pos rfl]
  · exact (Leads.up (.done _)).follows_iff last

section Named

variable {cl : Nat} {part : List UInt8} (clean : part ≠ []) (named : part ≠ [0x2E] ∧ part ≠ [0x2E, 0x2E])
include named

theorem Finds.stuck {result : Option Found} (finds : Finds vol disk cl part result)
    (noDir : ∀ found, result = some found → found.isDir = false) : Stuck vol disk cl [part] :=
  ⟨[], part, [], cl, result, rfl, .done cl, named, finds, noDir⟩

include clean

theorem folds_last {answer : Resolution} :
    Folds vol disk cl [part] answer ↔ ∃ result, Finds vol disk cl part result ∧ answer = result.map Found.answer := by
  rw [Folds, follows_single, settles_iff named, LooksUp, if_neg clean]

theorem folds_missing {rest : List (List UInt8)} {answer : Resolution} (finds : Finds vol disk cl part none) :
    Folds vol disk cl (part :: rest) answer ↔ answer = none := by
  by_cases last : rest = []
  · subst last
    rw [folds_last clean named]
    refine ⟨fun ⟨result, again, is⟩ => ?_, fun is => ⟨none, finds, is⟩⟩
    rw [is, again.unique finds]
    rfl
  · exact (finds.stuck named (fun _ no => nomatch no)).follows_iff last

theorem folds_found {rest : List (List UInt8)} {answer : Resolution} {found : Found}
    (finds : Finds vol disk cl part (some found)) :
    Folds vol disk cl (part :: rest) answer ↔
      if rest = [] then answer = some found.answer
      else if found.isDir then Folds vol disk found.cluster rest answer else answer = none := by
  split
  next last =>
    subst last
    rw [folds_last clean named]
    refine ⟨fun ⟨result, again, is⟩ => ?_, fun is => ⟨some found, finds, is⟩⟩
    rw [is, again.unique finds]
    rfl
  next more =>
    split
    next isDir => exact (Leads.down named finds isDir (.done _)).follows_iff more
    next noDir =>
      exact (finds.stuck named (by rintro _ ⟨⟩; simpa using noDir)).follows_iff more

end Named

theorem Folds.returns (clean : ∀ part ∈ parts, part ≠ []) (folds : Folds vol disk cl parts answer)
    (on : medium.disk = disk) :
    Returns (fun fuel => foldParts vol fuel cl parts) medium fun value _ => value = answer := by
  induction parts generalizing cl medium with
  | nil => exact Returns.pure (folds_nil.mp folds).symm
  | cons part rest ih =>
    have cleanRest : ∀ part ∈ rest, part ≠ [] := fun other member => clean other (mem_cons_of_mem _ member)
    refine Returns.branch (fun dot => ?_) fun notDot => Returns.branch (fun dots => ?_) fun notDots => ?_
    · subst dot
      exact ih cleanRest (folds_here.mp folds) on
    · subst dots
      exact ih cleanRest (folds_up.mp folds) on
    · have some := clean part mem_cons_self
      have looked : ∃ result, Finds vol disk cl part result := by
        by_cases last : rest = []
        · subst last
          obtain ⟨result, finds, _⟩ := (folds_last some ⟨notDot, notDots⟩).mp folds
          exact ⟨result, finds⟩
        · exact Follows.finds ⟨notDot, notDots⟩ last folds
      obtain ⟨result, finds⟩ := looked
      refine Returns.bind (finds.returns on) fun value between ⟨is, same⟩ => ?_
      subst is
      cases value with
      | none => exact Returns.pure ((folds_missing some ⟨notDot, notDots⟩ finds).mp folds).symm
      | some found =>
        rw [folds_found some ⟨notDot, notDots⟩ finds] at folds
        refine Returns.branch (fun last => ?_) fun more => Returns.branch (fun isDir => ?_) fun noDir => ?_
        · rw [if_pos last] at folds
          exact Returns.pure folds.symm
        · rw [if_neg more, if_pos isDir] at folds
          exact ih cleanRest folds (same.1.trans on)
        · rw [if_neg more, if_neg noDir] at folds
          exact Returns.pure folds.symm

theorem resolveFull_answers :
    Answers (fun fuel => resolveFull vol fuel path) medium answer ↔
      ResolvesTo vol medium.disk (startCluster vol path) (pathParts path.length path) answer :=
  answers_iff (fun fuel => (resolveFull_tells fuel path).imp fun _ _ told => told.1)
    fun _ resolves => (ResolvesTo.returns resolves rfl).imp fun _ _ returned => returned.1

/-- The pieces that `resolve_parent` makes of components: those of more than 15 bytes are cut. -/
def cutParts (parts : List (List UInt8)) : List (List UInt8) := parts.flatMap fun part => pathParts part.length part

/-- The resolver comes to a component of more than 15 bytes, whose beginning names a directory. -/
structure Enters (vol : Volume) (disk : Nat → Mem) (cl : Nat) (parts first : List (List UInt8)) (part : List UInt8)
    (rest : List (List UInt8)) (found : Found) : Prop where
  parts : parts = first ++ part :: rest
  short : ∀ part ∈ first, part.length ≤ 15
  long : 15 < part.length
  finds : ∃ target, Leads vol disk cl first target ∧ Finds vol disk target (part.take 15) (some found)
  isDir : found.isDir = true

/-- A dot name in the last place is found as an entry for the directory it stands for, and
a component of more than 15 bytes in the last place does not name a file. -/
structure Harmless (vol : Volume) (disk : Nat → Mem) (cl : Nat) (parts : List (List UInt8)) : Prop where
  dots : ∀ first name target, parts = first ++ [name] → (∀ part ∈ first, part.length ≤ 15) →
    name = [0x2E] ∨ name = [0x2E, 0x2E] → Leads vol disk cl first target →
    ∃ found, Finds vol disk target name (some found) ∧
      found.answer = (if name = [0x2E] then target else vol.rootCluster, 0, true)
  files : ∀ first part target found, parts = first ++ [part] → (∀ short ∈ first, short.length ≤ 15) →
    15 < part.length → Leads vol disk cl first target → ¬Finds vol disk target part (some found)

def Agree (vol : Volume) (disk : Nat → Mem) (cl : Nat) (parts : List (List UInt8)) : Prop :=
  ∀ answer, ResolvesTo vol disk cl (cutParts parts) answer ↔ Folds vol disk cl parts answer

def Clean (parts : List (List UInt8)) : Prop := ∀ part ∈ parts, part ≠ [] ∧ ∀ char ∈ part, isSeparator char = false

theorem cutParts_short (clean : Clean parts) (short : ∀ part ∈ parts, part.length ≤ 15) : cutParts parts = parts := by
  unfold cutParts
  induction parts with
  | nil => rfl
  | cons part rest ih =>
    obtain ⟨some, plain⟩ := clean part mem_cons_self
    rw [flatMap_cons, pathParts_short some plain (short part mem_cons_self),
      ih (fun other member => clean other (mem_cons_of_mem _ member))
        fun other member => short other (mem_cons_of_mem _ member), singleton_append]

theorem cutParts_append {first : List (List UInt8)} (clean : Clean (first ++ part :: rest))
    (short : ∀ part ∈ first, part.length ≤ 15) : cutParts (first ++ part :: rest) = first ++ cutParts (part :: rest) := by
  have before := cutParts_short (fun other member => clean other (mem_append_left _ member)) short
  unfold cutParts at before ⊢
  rw [flatMap_append, before]

section Long

variable (clean : Clean (part :: rest)) (long : 15 < part.length)
include clean long

/-- The beginning of a long component is a piece of its own, with more behind it. -/
theorem cutParts_long : cutParts (part :: rest) = part.take 15 :: (cutParts [part.drop 15] ++ cutParts rest) ∧
    cutParts [part.drop 15] ++ cutParts rest ≠ [] ∧ part.take 15 ≠ [0x2E] ∧ part.take 15 ≠ [0x2E, 0x2E] := by
  obtain ⟨nonempty, plain⟩ := clean part mem_cons_self
  have length : (part.take 15).length = 15 := by rw [length_take, Nat.min_eq_left (by omega)]
  have left : part.drop 15 ≠ [] := fun is => by
    rw [drop_eq_nil_iff] at is
    omega
  unfold cutParts
  rw [flatMap_cons, pathParts_component nonempty plain, cons_append, flatMap_singleton]
  refine ⟨rfl, ?_, fun is => (by rw [is] at length; cases length), fun is => (by rw [is] at length; cases length)⟩
  rw [pathParts_component left fun char member => plain char (mem_of_mem_drop member)]
  exact cons_ne_nil _ _

end Long

/-- The resolver goes on in the directory that it has entered, with what is left of the component. -/
theorem Enters.resolves {first : List (List UInt8)} {found : Found} (clean : Clean parts)
    (enters : Enters vol disk cl parts first part rest found) (answer : Resolution) :
    ResolvesTo vol disk cl (cutParts parts) answer ↔
      ResolvesTo vol disk found.cluster (cutParts [part.drop 15] ++ cutParts rest) answer := by
  obtain ⟨rfl, short, long, ⟨target, leads, finds⟩, isDir⟩ := enters
  have after : Clean (part :: rest) := fun other member => clean other (mem_append_right _ member)
  obtain ⟨pieces, more, cut⟩ := cutParts_long after long
  rw [cutParts_append clean short, pieces]
  exact (leads.follows_iff (cons_ne_nil _ _)).trans ((Leads.down cut finds isDir (.done _)).follows_iff more)

end GWKernel.Fat
