import GWKernel.Proofs.FatLookup

/-! Looking things up with enough fuel: what a scan or a walk comes to on a disk is what it
returns. -/

namespace GWKernel.Fat
open Lib List

variable {vol : Volume} {disk : Nat → Mem} {medium : Medium} {cl : Nat} {parts : List (List UInt8)}

theorem Scans.returns {α ρ : Type} {visit : Nat → Nat → Mem → α → Except ρ α} {failed ended : α → ρ} {acc : α}
    {result : ρ} (scans : Scans vol disk visit failed ended cl acc result) (on : medium.disk = disk) :
    Returns (fun fuel => scanChain vol visit failed ended fuel cl acc) medium fun value final =>
      value = result ∧ Same medium final := by
  induction scans generalizing medium with
  | leaves outside =>
    exact Returns.again (fun fuel => by rw [scanChain, if_neg outside]) (Returns.pure ⟨rfl, Same.refl _⟩)
  | stops inside stop =>
    refine Returns.again (fun fuel => by rw [scanChain, if_pos inside]) ?_
    refine Returns.bind (scanSectors_tells _ _ _).always fun value between ⟨is, same⟩ => ?_
    rw [on, stop] at is
    subst is
    exact Returns.pure ⟨rfl, same⟩
  | follows inside passed _ ih =>
    refine Returns.again (fun fuel => by rw [scanChain, if_pos inside]) ?_
    refine Returns.bind (scanSectors_tells _ _ _).always fun value between ⟨is, same⟩ => ?_
    rw [on, passed] at is
    subst is
    refine Returns.bind (fatGet_tells _).always fun link after ⟨linked, again⟩ => ?_
    rw [same.1, on] at linked
    subst linked
    refine (ih (by rw [again.1, same.1, on])).imp fun value final ⟨is, still⟩ => ⟨is, ?_⟩
    exact (same.trans again).trans still

theorem Walks.unique {one other : Option (Nat × List UInt8)} (left : Walks vol disk cl parts one)
    (right : Walks vol disk cl parts other) : one = other := by
  induction left with
  | nothing cl =>
    cases right
    rfl
  | leaf cl part =>
    cases right
    rfl
  | here _ ih =>
    cases right with
    | here walks => exact ih walks
    | down named _ _ _ => exact absurd rfl named.1
    | blocked named _ _ => exact absurd rfl named.1
  | up _ ih =>
    cases right with
    | up walks => exact ih walks
    | down named _ _ _ => exact absurd rfl named.2
    | blocked named _ _ => exact absurd rfl named.2
  | down named finds isDir _ ih =>
    cases right with
    | here _ => exact absurd rfl named.1
    | up _ => exact absurd rfl named.2
    | down _ again _ walks =>
      cases finds.unique again
      exact ih walks
    | blocked _ again noDir =>
      cases finds.unique again
      exact absurd isDir (by simp [noDir _ rfl])
  | blocked named finds noDir =>
    cases right with
    | here _ => exact absurd rfl named.1
    | up _ => exact absurd rfl named.2
    | down _ again isDir _ =>
      cases finds.unique again
      exact absurd isDir (by simp [noDir _ rfl])
    | blocked _ _ _ => rfl

theorem Walks.returns {result : Option (Nat × List UInt8)} (walks : Walks vol disk cl parts result)
    (on : medium.disk = disk) :
    Returns (fun fuel => walkParts vol fuel cl parts) medium fun value final => value = result ∧ Same medium final := by
  induction walks generalizing medium with
  | nothing cl | leaf cl part => exact Returns.pure ⟨rfl, Same.refl _⟩
  | here _ ih => exact ih on
  | up _ ih => exact ih on
  | down named finds isDir _ ih =>
    simp only [walkParts, if_neg named.1, if_neg named.2]
    refine Returns.bind (finds.returns on) fun value between ⟨is, same⟩ => ?_
    subst is
    simp only [isDir, if_true]
    exact (ih (same.1.trans on)).imp fun _ _ ⟨is, again⟩ => ⟨is, same.trans again⟩
  | @blocked cl part next rest result named finds noDir =>
    simp only [walkParts, if_neg named.1, if_neg named.2]
    refine Returns.bind (finds.returns on) fun value between ⟨is, same⟩ => ?_
    subst is
    cases value with
    | none => exact Returns.pure ⟨rfl, same⟩
    | some found =>
      simp only [noDir found rfl]
      exact Returns.pure ⟨rfl, same⟩

section Leading

variable (vol disk)

inductive Leads : Nat → List (List UInt8) → Nat → Prop where
  | done (cl : Nat) : Leads cl [] cl
  | here {cl target : Nat} {rest : List (List UInt8)} (leads : Leads cl rest target) : Leads cl ([0x2E] :: rest) target
  | up {cl target : Nat} {rest : List (List UInt8)} (leads : Leads vol.rootCluster rest target) :
      Leads cl ([0x2E, 0x2E] :: rest) target
  | down {cl target : Nat} {part : List UInt8} {rest : List (List UInt8)} {found : Found}
      (named : part ≠ [0x2E] ∧ part ≠ [0x2E, 0x2E]) (finds : Finds vol disk cl part (some found))
      (isDir : found.isDir = true) (leads : Leads found.cluster rest target) : Leads cl (part :: rest) target

def Stuck (cl : Nat) (parts : List (List UInt8)) : Prop :=
  ∃ before part after target result, parts = before ++ part :: after ∧ Leads vol disk cl before target ∧
    (part ≠ [0x2E] ∧ part ≠ [0x2E, 0x2E]) ∧ Finds vol disk target part result ∧
      ∀ found, result = some found → found.isDir = false

variable {vol disk} {cl target : Nat} {first second : List (List UInt8)}

theorem Leads.append {middle : Nat} (leads : Leads vol disk cl first middle)
    (rest : Leads vol disk middle second target) : Leads vol disk cl (first ++ second) target := by
  induction leads with
  | done _ => exact rest
  | here _ ih => exact .here (ih rest)
  | up _ ih => exact .up (ih rest)
  | down named finds isDir _ ih => exact .down named finds isDir (ih rest)

theorem Leads.split (leads : Leads vol disk cl (first ++ second) target) :
    ∃ middle, Leads vol disk cl first middle ∧ Leads vol disk middle second target := by
  induction first generalizing cl with
  | nil => exact ⟨cl, .done cl, leads⟩
  | cons part rest ih =>
    cases leads with
    | here leads =>
      obtain ⟨middle, before, after⟩ := ih leads
      exact ⟨middle, .here before, after⟩
    | up leads =>
      obtain ⟨middle, before, after⟩ := ih leads
      exact ⟨middle, .up before, after⟩
    | down named finds isDir leads =>
      obtain ⟨middle, before, after⟩ := ih leads
      exact ⟨middle, .down named finds isDir before, after⟩

theorem Leads.walks {result : Option (Nat × List UInt8)} (leads : Leads vol disk cl first target)
    (some : second ≠ []) (walks : Walks vol disk target second result) :
    Walks vol disk cl (first ++ second) result := by
  induction leads with
  | done _ => exact walks
  | @here _ _ rest _ ih =>
    obtain ⟨next, more, is⟩ := exists_cons_of_ne_nil (append_ne_nil_of_right_ne_nil rest some)
    rw [cons_append, is]
    exact .here (is ▸ ih walks)
  | @up _ _ rest _ ih =>
    obtain ⟨next, more, is⟩ := exists_cons_of_ne_nil (append_ne_nil_of_right_ne_nil rest some)
    rw [cons_append, is]
    exact .up (is ▸ ih walks)
  | @down _ _ _ rest _ named finds isDir _ ih =>
    obtain ⟨next, more, is⟩ := exists_cons_of_ne_nil (append_ne_nil_of_right_ne_nil rest some)
    rw [cons_append, is]
    exact .down named finds isDir (is ▸ ih walks)

theorem Leads.unique {one other : Nat} {parts : List (List UInt8)} (left : Leads vol disk cl parts one)
    (right : Leads vol disk cl parts other) : one = other := by
  have both := (left.walks (cons_ne_nil [] []) (.leaf one [])).unique
    (right.walks (cons_ne_nil [] []) (.leaf other []))
  exact (Prod.mk.inj (Option.some.inj both)).1

theorem Stuck.walks (stuck : Stuck vol disk cl first) (some : second ≠ []) :
    Walks vol disk cl (first ++ second) none := by
  obtain ⟨before, part, after, target, result, rfl, leads, named, finds, noDir⟩ := stuck
  obtain ⟨next, more, is⟩ := exists_cons_of_ne_nil (append_ne_nil_of_right_ne_nil after some)
  rw [append_assoc, cons_append, is]
  exact leads.walks (cons_ne_nil _ _) (.blocked named finds noDir)

theorem Stuck.cons {middle : Nat} {part : List UInt8} {rest : List (List UInt8)}
    (leads : Leads vol disk cl [part] middle) (stuck : Stuck vol disk middle rest) :
    Stuck vol disk cl (part :: rest) := by
  obtain ⟨before, other, after, target, result, rfl, leads', named, finds, noDir⟩ := stuck
  exact ⟨part :: before, other, after, target, result, rfl, leads.append leads', named, finds, noDir⟩

theorem Walks.split {result : Option (Nat × List UInt8)} (some : second ≠ [])
    (walks : Walks vol disk cl (first ++ second) result) :
    (∃ target, Leads vol disk cl first target ∧ Walks vol disk target second result) ∨
      result = none ∧ Stuck vol disk cl first := by
  induction first generalizing cl with
  | nil => exact .inl ⟨cl, .done cl, walks⟩
  | cons part rest ih =>
    have onward : ∀ {middle}, Leads vol disk cl [part] middle → Walks vol disk middle (rest ++ second) result →
        (∃ target, Leads vol disk cl (part :: rest) target ∧ Walks vol disk target second result) ∨
          result = none ∧ Stuck vol disk cl (part :: rest) := by
      intro middle one walks
      rcases ih walks with ⟨target, leads, ends⟩ | ⟨fails, stuck⟩
      · exact .inl ⟨target, one.append leads, ends⟩
      · exact .inr ⟨fails, stuck.cons one⟩
    obtain ⟨next, more, is⟩ := exists_cons_of_ne_nil (append_ne_nil_of_right_ne_nil rest some)
    rw [cons_append, is] at walks
    rw [is] at onward
    cases walks with
    | here walks => exact onward (.here (.done _)) walks
    | up walks => exact onward (.up (.done _)) walks
    | down named finds isDir walks => exact onward (.down named finds isDir (.done _)) walks
    | blocked named finds noDir => exact .inr ⟨rfl, [], part, rest, cl, _, rfl, .done cl, named, finds, noDir⟩

end Leading

abbrev Resolution := Option (Nat × Nat × Bool)

def Found.answer (found : Found) : Nat × Nat × Bool := (found.cluster, found.size, found.isDir)

/-- What following a path comes to; `finish` says what to do about the last piece. -/
inductive Follows (vol : Volume) (disk : Nat → Mem) (finish : Nat → List UInt8 → Resolution → Prop)
    (cl : Nat) (parts : List (List UInt8)) : Resolution → Prop where
  | nowhere (walks : Walks vol disk cl parts none) : Follows vol disk finish cl parts none
  | reaches {parent : Nat} {name : List UInt8} {answer : Resolution}
      (walks : Walks vol disk cl parts (some (parent, name))) (finishes : finish parent name answer) :
      Follows vol disk finish cl parts answer

def LooksUp (vol : Volume) (disk : Nat → Mem) (parent : Nat) (name : List UInt8) (answer : Resolution) :
    Prop :=
  if name = [] then answer = some (parent, 0, true)
  else ∃ found, Finds vol disk parent name found ∧ answer = found.map Found.answer

abbrev ResolvesTo (vol : Volume) (disk : Nat → Mem) : Nat → List (List UInt8) → Resolution → Prop :=
  Follows vol disk (LooksUp vol disk)

theorem LooksUp.start (parent : Nat) : LooksUp vol disk parent [] (some (parent, 0, true)) := by
  rw [LooksUp, if_pos rfl]

theorem LooksUp.entry {parent : Nat} {name : List UInt8} {found : Option Found} (named : name ≠ [])
    (finds : Finds vol disk parent name found) : LooksUp vol disk parent name (found.map Found.answer) := by
  rw [LooksUp, if_neg named]
  exact ⟨found, finds, rfl⟩

theorem LooksUp.unique {parent : Nat} {name : List UInt8} {one other : Resolution}
    (left : LooksUp vol disk parent name one) (right : LooksUp vol disk parent name other) : one = other := by
  unfold LooksUp at left right
  split at left
  next empty =>
    rw [if_pos empty] at right
    rw [left, right]
  next named =>
    rw [if_neg named] at right
    obtain ⟨found, finds, rfl⟩ := left
    obtain ⟨again, same, rfl⟩ := right
    rw [finds.unique same]

section Following

variable {finish : Nat → List UInt8 → Resolution → Prop} {cl : Nat} {answer : Resolution}

theorem Follows.unique {parts : List (List UInt8)} {one other : Resolution}
    (functional : ∀ parent name one other, finish parent name one → finish parent name other → one = other)
    (left : Follows vol disk finish cl parts one) (right : Follows vol disk finish cl parts other) : one = other := by
  cases left with
  | nowhere walks =>
    cases right with
    | nowhere _ => rfl
    | reaches again _ => cases walks.unique again
  | reaches walks finishes =>
    cases right with
    | nowhere again => cases walks.unique again
    | reaches again other =>
      cases walks.unique again
      exact functional _ _ _ _ finishes other

theorem follows_nil : Follows vol disk finish cl [] answer ↔ finish cl [] answer := by
  constructor
  · intro follows
    cases follows with
    | nowhere walks => cases walks
    | reaches walks finishes =>
      cases walks
      exact finishes
  · exact fun finishes => .reaches (.nothing cl) finishes

theorem follows_single {name : List UInt8} : Follows vol disk finish cl [name] answer ↔ finish cl name answer := by
  constructor
  · intro follows
    cases follows with
    | nowhere walks => cases walks
    | reaches walks finishes =>
      cases walks
      exact finishes
  · exact fun finishes => .reaches (.leaf cl name) finishes

theorem follows_append {first second : List (List UInt8)} (some : second ≠ []) :
    Follows vol disk finish cl (first ++ second) answer ↔
      (∃ target, Leads vol disk cl first target ∧ Follows vol disk finish target second answer) ∨
        answer = none ∧ Stuck vol disk cl first := by
  constructor
  · intro follows
    cases follows with
    | nowhere walks =>
      rcases walks.split some with ⟨target, leads, ends⟩ | ⟨_, stuck⟩
      · exact .inl ⟨target, leads, .nowhere ends⟩
      · exact .inr ⟨rfl, stuck⟩
    | reaches walks finishes =>
      rcases walks.split some with ⟨target, leads, ends⟩ | ⟨impossible, _⟩
      · exact .inl ⟨target, leads, .reaches ends finishes⟩
      · cases impossible
  · rintro (⟨target, leads, follows⟩ | ⟨rfl, stuck⟩)
    · cases follows with
      | nowhere walks => exact .nowhere (leads.walks some walks)
      | reaches walks finishes => exact .reaches (leads.walks some walks) finishes
    · exact .nowhere (stuck.walks some)

theorem Leads.follows_iff {cl target : Nat} {first second : List (List UInt8)} {answer : Resolution}
    (leads : Leads vol disk cl first target) (some : second ≠ []) :
    Follows vol disk finish cl (first ++ second) answer ↔ Follows vol disk finish target second answer := by
  rw [follows_append some]
  constructor
  · rintro (⟨other, again, follows⟩ | ⟨_, stuck⟩)
    · rwa [leads.unique again]
    · cases (leads.walks (cons_ne_nil [] []) (.leaf _ _)).unique (stuck.walks (cons_ne_nil [] []))
  · exact fun follows => .inl ⟨target, leads, follows⟩

theorem Stuck.follows_iff {cl : Nat} {first second : List (List UInt8)} {answer : Resolution}
    (stuck : Stuck vol disk cl first) (some : second ≠ []) :
    Follows vol disk finish cl (first ++ second) answer ↔ answer = none := by
  rw [follows_append some]
  constructor
  · rintro (⟨other, leads, _⟩ | ⟨none, _⟩)
    · cases (leads.walks (cons_ne_nil [] []) (.leaf _ _)).unique (stuck.walks (cons_ne_nil [] []))
    · exact none
  · exact fun none => .inr ⟨none, stuck⟩

theorem Follows.finds {part : List UInt8} {rest : List (List UInt8)} (named : part ≠ [0x2E] ∧ part ≠ [0x2E, 0x2E])
    (some : rest ≠ []) (follows : Follows vol disk finish cl (part :: rest) answer) :
    ∃ result, Finds vol disk cl part result := by
  obtain ⟨next, more, rfl⟩ := exists_cons_of_ne_nil some
  have looked : ∀ {result}, Walks vol disk cl (part :: next :: more) result → ∃ result, Finds vol disk cl part result := by
    intro result walks
    cases walks with
    | here _ => exact absurd rfl named.1
    | up _ => exact absurd rfl named.2
    | down _ finds _ _ => exact ⟨_, finds⟩
    | blocked _ finds _ => exact ⟨_, finds⟩
  cases follows with
  | nowhere walks => exact looked walks
  | reaches walks _ => exact looked walks

end Following

theorem ResolvesTo.unique {one other : Resolution} (left : ResolvesTo vol disk cl parts one)
    (right : ResolvesTo vol disk cl parts other) : one = other := by
  refine Follows.unique ?_ left right
  exact fun _ _ _ _ first second => LooksUp.unique first second

theorem bare_parts {path : List UInt8} (bare : path = [] ∨ path = [0x2F] ∨ path = [0x5C]) :
    pathParts path.length path = [] := by
  rcases bare with rfl | rfl | rfl
  · rfl
  · rfl
  · rfl

theorem resolveFull_tells (fuel : Nat) (path : List UInt8) :
    Ends False (resolveFull vol fuel path) medium fun answer final =>
      ResolvesTo vol medium.disk (startCluster vol path) (pathParts path.length path) answer ∧ Same medium final := by
  refine Ends.branch (fun bare => Ends.pure ⟨?_, Same.refl _⟩) fun _ => ?_
  · rw [bare_parts bare]
    exact .reaches (.nothing _) (.start _)
  · refine (resolveParent_tells fuel path).bind fun result middle ⟨resolved, same⟩ => ?_
    cases result with
    | none => exact Ends.pure ⟨.nowhere resolved, same⟩
    | some found =>
      obtain ⟨parent, name⟩ := found
      refine Ends.branch (fun empty => Ends.pure ⟨?_, same⟩) fun named => ?_
      · subst empty
        exact .reaches resolved (.start parent)
      · refine (dirFind_tells fuel parent name).bind fun result final ⟨finds, again⟩ => ?_
        rw [same.1] at finds
        have resolves := Follows.reaches resolved (LooksUp.entry named finds)
        cases result with
        | none | some => exact Ends.pure ⟨resolves, same.trans again⟩

theorem ResolvesTo.returns {path : List UInt8} {answer : Resolution}
    (resolves : ResolvesTo vol disk (startCluster vol path) (pathParts path.length path) answer)
    (on : medium.disk = disk) :
    Returns (fun fuel => resolveFull vol fuel path) medium fun value final => value = answer ∧ Same medium final := by
  have returned : Returns (fun fuel => resolveFull vol fuel path) medium fun _ _ => True := by
    refine Returns.branch (fun _ => Returns.pure trivial) fun _ => ?_
    cases resolves with
    | nowhere walks =>
      refine Returns.bind (walks.returns on) fun value between ⟨is, _⟩ => ?_
      subst is
      exact Returns.pure trivial
    | @reaches parent name _ walks looks =>
      refine Returns.bind (walks.returns on) fun value between ⟨is, same⟩ => ?_
      subst is
      refine Returns.branch (fun _ => Returns.pure trivial) fun named => ?_
      rw [LooksUp, if_neg named] at looks
      obtain ⟨found, finds, _⟩ := looks
      refine Returns.bind (finds.returns (same.1.trans on)) fun value _ _ => ?_
      cases value with
      | none | some => exact Returns.pure trivial
  refine (returned.and fun fuel => resolveFull_tells fuel path).imp fun value final ⟨_, told, same⟩ => ⟨?_, same⟩
  rw [on] at told
  exact ResolvesTo.unique told resolves

end GWKernel.Fat
