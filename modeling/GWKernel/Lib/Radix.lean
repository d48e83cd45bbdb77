import Mathlib

/-! Trees of tables: every entry of a table may lead to a further table. Nothing here
knows what tables, indices and entries are. -/

namespace GWKernel.Lib.Radix
open List Option

variable {τ ι ε : Type}

/-- The table that a row of indices leads to. -/
def descend (child : ε → Option τ) (read : τ → ι → ε) (root : τ) : List ι → Option τ
  | [] => some root
  | index :: rest => (child (read root index)).bind fun table => descend child read table rest

variable {child : ε → Option τ} {read : τ → ι → ε} {root table fresh : τ} {depth : Nat} {path : List ι} {index : ι}
  {entry : ε}

theorem descend_snoc (path : List ι) (index : ι) :
    descend child read root (path ++ [index]) =
      (descend child read root path).bind fun table => child (read table index) := by
  induction path generalizing root with
  | nil =>
    simp only [nil_append, descend, bind_some]
    cases child (read root index) <;> rfl
  | cons first rest ih =>
    simp only [cons_append, descend, bind_assoc]
    congr 1
    funext table
    exact ih

theorem descend_congr {other : τ → ι → ε}
    (same : ∀ path table, path.length < depth → descend child read root path = some table → other table = read table)
    (path : List ι) (short : path.length ≤ depth) :
    descend child other root path = descend child read root path := by
  induction path using List.reverseRecOn with
  | nil => rfl
  | append_singleton before place ih =>
    rw [length_append, length_singleton] at short
    rw [descend_snoc, descend_snoc, ih (by omega)]
    cases reached : descend child read root before with
    | none => rfl
    | some found => rw [bind_some, bind_some, same before found (by omega) reached]

variable [DecidableEq τ] [DecidableEq ι]

def set (read : τ → ι → ε) (table : τ) (index : ι) (entry : ε) : τ → ι → ε := fun other place =>
  if other = table ∧ place = index then entry else read other place

theorem set_same (read : τ → ι → ε) (table : τ) (index : ι) (entry : ε) :
    set read table index entry table index = entry :=
  if_pos ⟨rfl, rfl⟩

theorem set_other {other : τ} {place : ι}
    (apart : ¬(other = table ∧ place = index)) : set read table index entry other place = read other place :=
  if_neg apart

def Unshared (child : ε → Option τ) (read : τ → ι → ε) (root : τ) (depth : Nat) : Prop :=
  ∀ ⦃path other table⦄, path.length ≤ depth → other.length ≤ depth → descend child read root path = some table →
    descend child read root other = some table → path = other

theorem descend_set_last (unshared : Unshared child read root depth) (leads : descend child read root path = some table)
    (last : path.length = depth) (other : List ι) (short : other.length ≤ depth) :
    descend child (set read table index entry) root other = descend child read root other := by
  refine descend_congr (fun before found inner reached => ?_) other short
  funext place
  refine set_other fun ⟨is, _⟩ => ?_
  obtain rfl := unshared (by omega) (by omega) (is ▸ reached) leads
  omega

theorem descend_set_link (unshared : Unshared child read root depth) (leads : descend child read root path = some table)
    (inner : path.length < depth) (empty : child (read table index) = none) (links : child entry = some fresh)
    (new : ∀ other : List ι, other.length ≤ depth → descend child read root other ≠ some fresh)
    (blank : ∀ place, child (read fresh place) = none) (other : List ι) (short : other.length ≤ depth) :
    descend child (set read table index entry) root other =
      if other = path ++ [index] then some fresh else descend child read root other := by
  have absent : descend child read root (path ++ [index]) = none := by
    rw [descend_snoc, leads]
    exact empty
  induction other using List.reverseRecOn with
  | nil =>
    rw [if_neg (by simp)]
    rfl
  | append_singleton before place ih =>
    rw [length_append, length_singleton] at short
    rw [descend_snoc, ih (by omega)]
    by_cases at_new : before = path ++ [index]
    · -- Below the new table there is nothing yet.
      subst at_new
      have differs : fresh ≠ table := fun same => new path (by omega) (same ▸ leads)
      rw [if_pos rfl, if_neg (by simp), descend_snoc, absent]
      simp only [bind_some, set_other (fun both => differs both.1), blank, bind_none]
    · rw [if_neg at_new]
      by_cases here : before ++ [place] = path ++ [index]
      · obtain ⟨rfl, is⟩ := append_inj' here rfl
        obtain rfl := singleton_inj.mp is
        rw [if_pos rfl, leads]
        simp only [bind_some, set_same, links]
      · rw [if_neg here, descend_snoc]
        cases reached : descend child read root before with
        | none => rfl
        | some found =>
          have apart : ¬(found = table ∧ place = index) := by
            rintro ⟨rfl, rfl⟩
            exact here (by rw [unshared (by omega) (by omega) reached leads])
          simp only [bind_some, set_other apart]

theorem Unshared.link (unshared : Unshared child read root depth) (leads : descend child read root path = some table)
    (inner : path.length < depth) (empty : child (read table index) = none) (links : child entry = some fresh)
    (new : ∀ other : List ι, other.length ≤ depth → descend child read root other ≠ some fresh)
    (blank : ∀ place, child (read fresh place) = none) :
    Unshared child (set read table index entry) root depth := by
  intro first second found firstShort secondShort toFirst toSecond
  have step := descend_set_link unshared leads inner empty links new blank
  rw [step first firstShort] at toFirst
  rw [step second secondShort] at toSecond
  split at toFirst
  next atFirst =>
    split at toSecond
    next atSecond => exact atFirst.trans atSecond.symm
    next => exact absurd (toSecond.trans toFirst.symm) (new second secondShort)
  next =>
    split at toSecond
    next => exact absurd (toFirst.trans toSecond.symm) (new first firstShort)
    next => exact unshared firstShort secondShort toFirst toSecond

end GWKernel.Lib.Radix
