import GWKernel.Lib.Run
import GWKernel.Vfs

/-! The RAMFS nodes form a tree. A node that `vfs_unlink` has taken out keeps its pointers; it is
recognised by its cleared type and never gets a child again. -/

namespace GWKernel.Vfs
open Lib List

variable {nodes : Nat → Node} {ram : Ramfs} {kids : Nat → List Nat} {state : State}

/-- The nodes that are met from a pointer along the sibling pointers. -/
inductive Siblings (nodes : Nat → Node) : Option Nat → List Nat → Prop where
  | done : Siblings nodes none []
  | next {c : Nat} {cs : List Nat} (tail : Siblings nodes (nodes c).sibling cs) : Siblings nodes (some c) (c :: cs)

/-- The nodes in the child lists from the root down. -/
inductive Linked (nodes : Nat → Node) : Nat → Prop where
  | root : Linked nodes root
  | child {d c : Nat} {cs : List Nat} (parent : Linked nodes d) (list : Siblings nodes (nodes d).child cs)
      (member : c ∈ cs) : Linked nodes c

variable {start : Option Nat} {cs : List Nat} {other : Nat → Node} {n par : Nat}

theorem Siblings.unique {ds : List Nat} (list : Siblings nodes start cs) (again : Siblings nodes start ds) :
    cs = ds := by
  induction list generalizing ds with
  | done =>
    cases again
    rfl
  | next _ ih =>
    cases again with
    | next tail => rw [ih tail]

theorem Siblings.congr (list : Siblings nodes start cs) (same : ∀ c ∈ cs, (other c).sibling = (nodes c).sibling) :
    Siblings other start cs := by
  induction list with
  | done => exact .done
  | @next c cs _ ih =>
    refine .next ?_
    rw [same c mem_cons_self]
    exact ih fun e member => same e (mem_cons_of_mem _ member)

theorem Siblings.after {start : Option Nat} {before later : List Nat} {c : Nat}
    (list : Siblings nodes start (before ++ c :: later)) : Siblings nodes (nodes c).sibling later := by
  induction before generalizing start with
  | nil =>
    cases list with
    | next tail => exact tail
  | cons first before ih =>
    cases list with
    | next tail => exact ih tail

theorem Siblings.splice {before after : List Nat} {p : Nat}
    (list : Siblings nodes start (before ++ p :: n :: after)) (first : p ∉ before) (last : p ∉ after) :
    Siblings (setNode nodes p { nodes p with sibling := (nodes n).sibling }) start (before ++ p :: after) := by
  have same : ∀ c, c ≠ p →
      (setNode nodes p { nodes p with sibling := (nodes n).sibling } c).sibling = (nodes c).sibling := fun c differ => by
    simp [setNode, differ]
  induction before generalizing start with
  | nil =>
    cases list with
    | next tail =>
      have rest : Siblings nodes (nodes n).sibling after := by
        generalize (nodes p).sibling = next at tail
        cases tail with
        | next tail => exact tail
      refine .next ?_
      rw [show (setNode nodes p { nodes p with sibling := (nodes n).sibling } p).sibling = (nodes n).sibling by
        simp [setNode]]
      exact rest.congr fun c member => same c fun here => last (here ▸ member)
  | cons c before ih =>
    cases list with
    | next tail =>
      refine .next ?_
      rw [same c fun here => first (here ▸ mem_cons_self)]
      exact ih tail fun member => first (mem_cons_of_mem _ member)

theorem findChild_eq (list : Siblings nodes start cs) (part : List UInt8) (fuel : Nat) :
    findChild nodes fuel start part = none ∧ fuel ≤ cs.length ∨
      findChild nodes fuel start part = some (cs.find? fun c => decide ((nodes c).name = part)) := by
  induction list generalizing fuel with
  | done =>
    cases fuel with
    | zero => exact .inl ⟨rfl, Nat.zero_le _⟩
    | succ fuel => exact .inr rfl
  | @next c cs tail ih =>
    cases fuel with
    | zero => exact .inl ⟨rfl, Nat.zero_le _⟩
    | succ fuel =>
      unfold findChild
      by_cases here : (nodes c).name = part
      · simp [here]
      · simp only [here, if_false, decide_false, length_cons, Nat.add_le_add_iff_right, Bool.false_eq_true,
          not_false_eq_true, find?_cons_of_neg]
        exact ih fuel

/-- The child lists `kids`. A node is in the list of its parent as long as its type is not
cleared, and pointers to parents and siblings lead to older nodes. -/
structure Tree (ram : Ramfs) (kids : Nat → List Nat) : Prop where
  bounded : ram.nodeCount ≤ maxNodes
  rooted : root < ram.nodeCount ∧ (ram.nodes root).type = .dir ∧ (ram.nodes root).parent = none
  lists : ∀ d < ram.nodeCount, Siblings ram.nodes (ram.nodes d).child (kids d)
  kin : ∀ d < ram.nodeCount, ∀ c, c ∈ kids d ↔
    c < ram.nodeCount ∧ (ram.nodes c).parent = some d ∧ (ram.nodes c).type ≠ .cleared
  dirs : ∀ d < ram.nodeCount, kids d ≠ [] → (ram.nodes d).type = .dir
  parents : ∀ c < ram.nodeCount, c ≠ root → ∃ d < c, (ram.nodes c).parent = some d
  siblings : ∀ c < ram.nodeCount, ∀ e, (ram.nodes c).sibling = some e → e < c

namespace Tree

variable (tree : Tree ram kids)
include tree

variable {c d : Nat}

theorem parent_lt (inside : c < ram.nodeCount) (parent : (ram.nodes c).parent = some d) : d < c := by
  by_cases top : c = root
  · subst top
    rw [tree.rooted.2.2] at parent
    cases parent
  · obtain ⟨e, older, is⟩ := tree.parents c inside top
    rw [is] at parent
    cases parent
    exact older

theorem kid_lt (inside : d < ram.nodeCount) (member : c ∈ kids d) : c < ram.nodeCount :=
  ((tree.kin d inside c).mp member).1

theorem parent_dir (inside : c < ram.nodeCount) (parent : (ram.nodes c).parent = some d)
    (live : (ram.nodes c).type ≠ .cleared) : d < ram.nodeCount ∧ (ram.nodes d).type = .dir := by
  have older := tree.parent_lt inside parent
  have member := (tree.kin d (by omega) c).mpr ⟨inside, parent, live⟩
  exact ⟨by omega, tree.dirs d (by omega) fun none => by rw [none] at member; cases member⟩

theorem sorted {start : Option Nat} {cs : List Nat} (list : Siblings ram.nodes start cs)
    (inside : ∀ c ∈ cs, c < ram.nodeCount) : cs.Pairwise (· > ·) := by
  induction list with
  | done => exact List.Pairwise.nil
  | @next c cs tail ih =>
    have sorted := ih fun e member => inside e (mem_cons_of_mem _ member)
    refine pairwise_cons.mpr ⟨fun e member => ?_, sorted⟩
    cases tail' : (ram.nodes c).sibling with
    | none =>
      rw [tail'] at tail
      cases tail
      cases member
    | some next =>
      have older := tree.siblings c (inside c mem_cons_self) next tail'
      rw [tail'] at tail
      cases tail with
      | next _ =>
        rcases mem_cons.mp member with rfl | later
        · exact older
        · exact Nat.lt_trans ((pairwise_cons.mp sorted).1 e later) older

theorem kids_nodup (inside : d < ram.nodeCount) : (kids d).Nodup :=
  (tree.sorted (tree.lists d inside) fun _ member => tree.kid_lt inside member).imp fun younger => Nat.ne_of_gt younger

theorem kids_length (inside : d < ram.nodeCount) : (kids d).length ≤ maxNodes := by
  have fits : (kids d).length ≤ (List.range ram.nodeCount).length :=
    (subperm_of_subset (tree.kids_nodup inside) fun c member =>
      mem_range.mpr (tree.kid_lt inside member)).length_le
  rw [length_range] at fits
  exact Nat.le_trans fits tree.bounded

theorem linked_iff {n : Nat} : Linked ram.nodes n ↔ n < ram.nodeCount ∧ (ram.nodes n).type ≠ .cleared := by
  constructor
  · intro linked
    induction linked with
    | root =>
      refine ⟨tree.rooted.1, ?_⟩
      rw [tree.rooted.2.1]
      exact NodeType.noConfusion
    | child _ list member ih =>
      rw [list.unique (tree.lists _ ih.1)] at member
      have kin := (tree.kin _ ih.1 _).mp member
      exact ⟨kin.1, kin.2.2⟩
  · intro ⟨inside, live⟩
    induction n using Nat.strongRecOn with
    | ind n ih =>
      by_cases top : n = root
      · rw [top]
        exact .root
      · obtain ⟨d, older, parent⟩ := tree.parents n inside top
        obtain ⟨below, isDir⟩ := tree.parent_dir inside parent live
        refine .child (ih d older below ?_) (tree.lists d below) ((tree.kin d below n).mpr ⟨inside, parent, live⟩)
        rw [isDir]
        exact NodeType.noConfusion

end Tree

def hop (ram : Ramfs) (kids : Nat → List Nat) (cur : Nat) (part : List UInt8) : Option Nat :=
  if part = [] ∨ part = [0x2E] then some cur
  else if part = [0x2E, 0x2E] then some ((ram.nodes cur).parent.getD cur)
  else if (ram.nodes cur).type ≠ .dir then none
  else (kids cur).find? fun c => decide ((ram.nodes c).name = part)

def follow (ram : Ramfs) (kids : Nat → List Nat) (base : Nat) (path : List UInt8) : Option Nat :=
  (pieces (stripC path).length (stripC path)).foldlM (hop ram kids) base

section Walk

variable (tree : Tree ram kids)
include tree

variable {cur n : Nat}

theorem hop_inside {part : List UInt8} (inside : cur < ram.nodeCount) (hops : hop ram kids cur part = some n) :
    n < ram.nodeCount := by
  unfold hop at hops
  split at hops
  next =>
    cases hops
    exact inside
  next =>
    split at hops
    next =>
      cases hops
      cases parent : (ram.nodes cur).parent with
      | none => exact inside
      | some d => exact Nat.lt_trans (tree.parent_lt inside parent) inside
    next =>
      split at hops
      next => cases hops
      next => exact tree.kid_lt inside (mem_of_find?_eq_some hops)

theorem hops_inside {parts : List (List UInt8)} (inside : cur < ram.nodeCount)
    (hops : parts.foldlM (hop ram kids) cur = some n) : n < ram.nodeCount := by
  induction parts generalizing cur with
  | nil =>
    cases hops
    exact inside
  | cons part rest ih =>
    rw [foldlM_cons, Option.bind_eq_bind, Option.bind_eq_some_iff] at hops
    obtain ⟨middle, first, others⟩ := hops
    exact ih (hop_inside tree inside first) others

theorem walkPieces_eq (inside : cur < ram.nodeCount) (parts : List (List UInt8)) (fuel : Nat) :
    walkPieces ram.nodes fuel cur parts = none ∧ fuel ≤ maxNodes ∨
      walkPieces ram.nodes fuel cur parts = some (parts.foldlM (hop ram kids) cur) := by
  induction parts generalizing cur with
  | nil => exact .inr rfl
  | cons part rest ih =>
    have next : ∀ {n}, hop ram kids cur part = some n → walkPieces ram.nodes fuel n rest = none ∧ fuel ≤ maxNodes ∨
        walkPieces ram.nodes fuel n rest = some ((part :: rest).foldlM (hop ram kids) cur) := by
      intro n hops
      rw [foldlM_cons, hops]
      exact ih (hop_inside tree inside hops)
    unfold walkPieces
    by_cases stay : part = [] ∨ part = [0x2E]
    · rw [if_pos stay]
      exact next (by rw [hop, if_pos stay])
    rw [if_neg stay]
    by_cases up : part = [0x2E, 0x2E]
    · rw [if_pos up]
      exact next (by rw [hop, if_neg stay, if_pos up])
    rw [if_neg up]
    by_cases leaf : (ram.nodes cur).type ≠ .dir
    · rw [if_pos leaf, foldlM_cons]
      have stuck : hop ram kids cur part = none := by rw [hop, if_neg stay, if_neg up, if_pos leaf]
      rw [stuck]
      exact .inr rfl
    have down : hop ram kids cur part = (kids cur).find? fun c => decide ((ram.nodes c).name = part) := by
      rw [hop, if_neg stay, if_neg up, if_neg leaf]
    rw [if_neg leaf]
    rcases findChild_eq (tree.lists cur inside) part fuel with ⟨none, short⟩ | found
    · rw [none]
      exact .inl ⟨rfl, Nat.le_trans short (tree.kids_length inside)⟩
    · rw [found, ← down]
      cases step : hop ram kids cur part with
      | none =>
        rw [foldlM_cons, step]
        exact .inr rfl
      | some c => exact next step

theorem lookupRel_eq {base : Nat} (inside : base < ram.nodeCount) (path : List UInt8) (fuel : Nat) :
    lookupRel ram.nodes fuel base path = none ∧ fuel ≤ maxNodes ∨
      lookupRel ram.nodes fuel base path = some (follow ram kids base path) := by
  unfold lookupRel
  split
  next empty =>
    subst empty
    exact .inr rfl
  next => exact walkPieces_eq tree inside _ fuel

theorem follow_inside {base : Nat} {path : List UInt8} (inside : base < ram.nodeCount)
    (leads : follow ram kids base path = some n) : n < ram.nodeCount := hops_inside tree inside leads

end Walk

/-- The same tree: only the data of files may differ. -/
structure SameTree (ram other : Ramfs) : Prop where
  count : other.nodeCount = ram.nodeCount
  name : ∀ n, (other.nodes n).name = (ram.nodes n).name
  type : ∀ n, (other.nodes n).type = (ram.nodes n).type
  parent : ∀ n, (other.nodes n).parent = (ram.nodes n).parent
  child : ∀ n, (other.nodes n).child = (ram.nodes n).child
  sibling : ∀ n, (other.nodes n).sibling = (ram.nodes n).sibling

theorem SameTree.refl (ram : Ramfs) : SameTree ram ram :=
  ⟨rfl, fun _ => rfl, fun _ => rfl, fun _ => rfl, fun _ => rfl, fun _ => rfl⟩

theorem SameTree.trans {first second third : Ramfs} (one : SameTree first second)
    (two : SameTree second third) : SameTree first third :=
  ⟨two.count.trans one.count, fun n => (two.name n).trans (one.name n), fun n => (two.type n).trans (one.type n), fun n => (two.parent n).trans (one.parent n),
    fun n => (two.child n).trans (one.child n), fun n => (two.sibling n).trans (one.sibling n)⟩

theorem SameTree.tree {other : Ramfs} (same : SameTree ram other) (tree : Tree ram kids) : Tree other kids := by
  constructor
  · rw [same.count]
    exact tree.bounded
  · rw [same.count, same.type, same.parent]
    exact tree.rooted
  · intro d inside
    rw [same.count] at inside
    rw [same.child]
    exact (tree.lists d inside).congr fun c _ => same.sibling c
  · intro d inside c
    rw [same.count] at inside ⊢
    rw [same.parent, same.type]
    exact tree.kin d inside c
  · intro d inside
    rw [same.count] at inside
    rw [same.type]
    exact tree.dirs d inside
  · intro c inside
    rw [same.count] at inside
    rw [same.parent]
    exact tree.parents c inside
  · intro c inside
    rw [same.count] at inside
    rw [same.sibling]
    exact tree.siblings c inside

theorem sameTree_setNode {node : Node} (name : node.name = (ram.nodes n).name)
    (type : node.type = (ram.nodes n).type) (parent : node.parent = (ram.nodes n).parent)
    (child : node.child = (ram.nodes n).child) (sibling : node.sibling = (ram.nodes n).sibling) :
    SameTree ram { ram with nodes := setNode ram.nodes n node } := by
  refine ⟨rfl, fun m => ?_, fun m => ?_, fun m => ?_, fun m => ?_, fun m => ?_⟩ <;>
  · simp only [setNode]
    split
    next here => rw [here]; assumption
    next => rfl

structure Added (ram other : Ramfs) (par n : Nat) (name : List UInt8) (type : NodeType) : Prop where
  room : ram.nodeCount < maxNodes
  fresh : n = ram.nodeCount
  count : other.nodeCount = n + 1
  node : other.nodes n =
    { Node.zero with name := strcpy name nameMax, type := type, parent := some par, sibling := (ram.nodes par).child }
  parent : other.nodes par = { ram.nodes par with child := some n }
  rest : ∀ m, m ≠ n → m ≠ par → other.nodes m = ram.nodes m
  memory : other.low = ram.low ∧ other.grants = ram.grants ∧ other.kmallocs = ram.kmallocs

theorem allocNode_added {name : List UInt8} {type : NodeType} {other : Ramfs} (inside : par < ram.nodeCount)
    (ran : allocNode ram name type (some par) = some (n, other)) : Added ram other par n name type := by
  unfold allocNode at ran
  split at ran
  next => cases ran
  next room =>
    cases ran
    have differ : par ≠ ram.nodeCount := by omega
    refine ⟨by omega, rfl, rfl, ?_, ?_, fun m notNew notParent => ?_, rfl, rfl, rfl⟩
    · simp [setNode, differ, differ.symm]
    · simp [setNode, differ]
    · simp [setNode, notNew, notParent]

section Added

variable {par n : Nat} {name : List UInt8} {type : NodeType} {other : Ramfs} (added : Added ram other par n name type)
include added

theorem Added.old {m : Nat} (below : m < ram.nodeCount) : (other.nodes m).name = (ram.nodes m).name ∧
    (other.nodes m).type = (ram.nodes m).type ∧ (other.nodes m).parent = (ram.nodes m).parent ∧
    (other.nodes m).sibling = (ram.nodes m).sibling := by
  have notNew : m ≠ n := by
    have fresh := added.fresh
    omega
  by_cases here : m = par
  · rw [here, added.parent]
    exact ⟨rfl, rfl, rfl, rfl⟩
  · rw [added.rest m notNew here]
    exact ⟨rfl, rfl, rfl, rfl⟩

theorem Added.tree (tree : Tree ram kids) (inside : par < ram.nodeCount) (isDir : (ram.nodes par).type = .dir)
    (kept : type ≠ .cleared) :
    Tree other fun d => if d = n then [] else if d = par then n :: kids par else kids d := by
  have room := added.room
  have fresh := added.fresh
  have count := added.count
  have node := added.node
  have old : ∀ {m}, m < other.nodeCount → m ≠ n → m < ram.nodeCount := by omega
  have top : root < ram.nodeCount := tree.rooted.1
  constructor
  · omega
  · refine ⟨by omega, ?_, ?_⟩
    · rw [(added.old top).2.1, tree.rooted.2.1]
    · rw [(added.old top).2.2.1, tree.rooted.2.2]
  · intro d below
    have carried : ∀ {e}, e < ram.nodeCount → Siblings other.nodes (ram.nodes e).child (kids e) := fun small =>
      (tree.lists _ small).congr fun c member => (added.old (tree.kid_lt small member)).2.2.2
    by_cases new : d = n
    · rw [if_pos new, new, node]
      exact .done
    rw [if_neg new]
    by_cases here : d = par
    · rw [if_pos here, here, added.parent]
      refine .next ?_
      rw [node]
      exact carried inside
    · rw [if_neg here, added.rest d new here]
      exact carried (old below new)
  · intro d below c
    by_cases newKid : c = n
    · subst newKid
      rw [node]
      by_cases new : d = c
      · have differ : par ≠ c := by omega
        simp [new, differ]
      · by_cases here : d = par
        · subst here
          simp [new, kept, count]
        · have missing : c ∉ kids d := fun member => by
            have bound := tree.kid_lt (old below new) member
            omega
          simp [new, here, Ne.symm here, missing]
    · have bound : c < other.nodeCount ↔ c < ram.nodeCount := by omega
      by_cases new : d = n
      · subst new
        simp only [if_true, not_mem_nil, false_iff, bound]
        rintro ⟨small, parent, _⟩
        rw [(added.old small).2.2.1] at parent
        have older := tree.parent_lt small parent
        omega
      · have same : (c ∈ if d = n then [] else if d = par then n :: kids par else kids d) ↔ c ∈ kids d := by
          rw [if_neg new]
          by_cases here : d = par
          · simp [here, newKid]
          · simp [here]
        rw [same, tree.kin d (old below new) c, bound]
        refine and_congr_right fun small => ?_
        rw [(added.old small).2.1, (added.old small).2.2.1]
  · intro d below nonempty
    by_cases new : d = n
    · simp [new] at nonempty
    rw [(added.old (old below new)).2.1]
    by_cases here : d = par
    · rw [here, isDir]
    · simp only [new, here, if_false] at nonempty
      exact tree.dirs d (old below new) nonempty
  · intro c below notRoot
    by_cases new : c = n
    · subst new
      rw [node]
      exact ⟨par, by omega, rfl⟩
    · rw [(added.old (old below new)).2.2.1]
      exact tree.parents c (old below new) notRoot
  · intro c below e sibling
    by_cases new : c = n
    · subst new
      have first : (ram.nodes par).child = some e := by rwa [node] at sibling
      have list := tree.lists par inside
      rw [first] at list
      generalize kids_ : kids par = cs at list
      cases list with
      | next _ =>
        have small := tree.kid_lt inside (kids_ ▸ mem_cons_self)
        omega
    · rw [(added.old (old below new)).2.2.2] at sibling
      exact tree.siblings c (old below new) e sibling

end Added

/-- The table after a node has been looked for in the list of `par`, and taken out. -/
inductive Cut (nodes : Nat → Node) (par n : Nat) (cs : List Nat) : (Nat → Node) → Prop where
  | absent (missing : n ∉ cs) : Cut nodes par n cs nodes
  | first {after : List Nat} (list : cs = n :: after) :
      Cut nodes par n cs (setNode nodes par { nodes par with child := (nodes n).sibling })
  | inner {before after : List Nat} {p : Nat} (list : cs = before ++ p :: n :: after) :
      Cut nodes par n cs (setNode nodes p { nodes p with sibling := (nodes n).sibling })

theorem unlinkAfter_cut {par n c fuel : Nat} {before cs : List Nat} {other : Nat → Node}
    (list : Siblings nodes (nodes c).sibling cs) (earlier : n ∉ before ++ [c])
    (ran : unlinkAfter nodes n fuel c = some other) : Cut nodes par n (before ++ c :: cs) other := by
  induction fuel generalizing c before cs with
  | zero => cases ran
  | succ fuel ih =>
    unfold unlinkAfter at ran
    cases next : (nodes c).sibling with
    | none =>
      rw [next] at list ran
      cases list
      cases ran
      exact .absent earlier
    | some e =>
      rw [next] at list ran
      cases list with
      | @next _ rest tail =>
        simp only at ran
        split at ran
        next here =>
          subst here
          cases ran
          exact .inner rfl
        next differ =>
          have step := @ih e (before ++ [c]) rest tail (by simpa [Ne.symm differ] using earlier) ran
          rwa [append_assoc] at step

theorem unlinkChild_cut {fuel : Nat} (list : Siblings nodes (nodes par).child cs)
    (ran : unlinkChild nodes fuel par n = some other) : Cut nodes par n cs other := by
  unfold unlinkChild at ran
  cases head : (nodes par).child with
  | none =>
    rw [head] at list ran
    cases list
    cases ran
    exact .absent not_mem_nil
  | some c =>
    rw [head] at list ran
    cases list with
    | @next _ rest tail =>
      simp only at ran
      split at ran
      next here =>
        subst here
        cases ran
        exact .first rfl
      next differ => exact @unlinkAfter_cut nodes par n c fuel [] rest other tail (by simpa using Ne.symm differ) ran

theorem filter_ne_self (missing : n ∉ cs) : cs.filter (· ≠ n) = cs := by
  refine filter_eq_self.mpr fun c member => decide_eq_true fun same : c = n => ?_
  exact missing (same ▸ member)

section Cut

variable {par n : Nat} {cs : List Nat} {other : Nat → Node} (cut : Cut nodes par n cs other)
include cut

theorem Cut.same (m : Nat) : (other m).name = (nodes m).name ∧ (other m).type = (nodes m).type ∧
    (other m).parent = (nodes m).parent := by
  cases cut with
  | absent _ => exact ⟨rfl, rfl, rfl⟩
  | first _ =>
    by_cases here : m = par
    · simp [setNode, here]
    · simp [setNode, here]
  | @inner _ _ p _ =>
    by_cases here : m = p
    · simp [setNode, here]
    · simp [setNode, here]

theorem Cut.child_eq {m : Nat} (differ : m ≠ par) : (other m).child = (nodes m).child := by
  cases cut with
  | absent _ => rfl
  | first _ => simp [setNode, differ]
  | @inner _ _ p _ =>
    by_cases here : m = p
    · simp [setNode, here]
    · simp [setNode, here]

theorem Cut.sibling_eq {m : Nat} (outside : m ∉ cs) : (other m).sibling = (nodes m).sibling := by
  cases cut with
  | absent _ => rfl
  | first _ =>
    by_cases here : m = par
    · simp [setNode, here]
    · simp [setNode, here]
  | @inner _ _ p list =>
    have here : m ≠ p := fun same => outside (by simp [list, same])
    simp [setNode, here]

theorem Cut.sibling_cases (list : Siblings nodes (nodes par).child cs) (m : Nat) :
    (other m).sibling = (nodes m).sibling ∨
      (nodes m).sibling = some n ∧ (other m).sibling = (nodes n).sibling := by
  cases cut with
  | absent _ => exact .inl rfl
  | first _ =>
    refine .inl ?_
    by_cases here : m = par
    · simp [setNode, here]
    · simp [setNode, here]
  | @inner before after p split =>
    by_cases here : m = p
    · subst here
      rw [split] at list
      have tail := list.after
      generalize (nodes m).sibling = next at tail ⊢
      cases tail with
      | next _ => exact .inr ⟨rfl, by simp [setNode]⟩
    · exact .inl (by simp [setNode, here])

theorem Cut.list (list : Siblings nodes (nodes par).child cs) (distinct : cs.Nodup) :
    Siblings other (other par).child (cs.filter (· ≠ n)) := by
  cases cut with
  | absent missing =>
    rw [filter_ne_self missing]
    exact list
  | @first after split =>
    subst split
    obtain ⟨fresh, _⟩ := nodup_cons.mp distinct
    have tail : Siblings nodes (nodes n).sibling after := @Siblings.after nodes _ [] after n list
    have rest : (n :: after).filter (· ≠ n) = after := by
      rw [filter_cons_of_neg (by simp), filter_ne_self fresh]
    rw [rest, show (setNode nodes par { nodes par with child := (nodes n).sibling } par).child = (nodes n).sibling by
      simp [setNode]]
    refine tail.congr fun c _ => ?_
    by_cases here : c = par
    · simp [setNode, here]
    · simp [setNode, here]
  | @inner before after p split =>
    subst split
    have places : p ∉ before ∧ p ∉ after ∧ n ≠ p ∧ n ∉ before ∧ n ∉ after := by
      simp only [nodup_append, nodup_cons, mem_cons, not_or] at distinct
      refine ⟨fun member => distinct.2.2 p member p (.inl rfl) rfl, distinct.2.1.1.2, Ne.symm distinct.2.1.1.1,
        fun member => distinct.2.2 n member n (.inr (.inl rfl)) rfl, distinct.2.1.2.1⟩
    have rest : (before ++ p :: n :: after).filter (· ≠ n) = before ++ p :: after := by
      rw [filter_append, filter_cons_of_pos (by simpa using Ne.symm places.2.2.1),
        filter_cons_of_neg (by simp), filter_ne_self places.2.2.2.1, filter_ne_self places.2.2.2.2]
    have head : (setNode nodes p { nodes p with sibling := (nodes n).sibling } par).child = (nodes par).child := by
      by_cases here : par = p
      · simp [setNode, here]
      · simp [setNode, here]
    rw [rest, head]
    exact list.splice places.1 places.2.1

end Cut

theorem Cut.tree (tree : Tree ram kids) (inside : n < ram.nodeCount) (notRoot : n ≠ root)
    (parent : (ram.nodes n).parent = some par) (bare : (ram.nodes n).type = .dir → (ram.nodes n).child = none)
    (cut : Cut ram.nodes par n (kids par) other) :
    Tree { ram with nodes := setNode other n { other n with type := .cleared, name := [] } }
      fun d => (kids d).filter (· ≠ n) := by
  have older := tree.parent_lt inside parent
  have childless : kids n = [] := by
    by_contra nonempty
    have list := tree.lists n inside
    rw [bare (tree.dirs n inside nonempty)] at list
    generalize kids n = cs at list nonempty
    cases list
    exact nonempty rfl
  -- The final write to the node touches no pointer.
  have pointer : ∀ m, (setNode other n { other n with type := .cleared, name := [] } m).parent = (ram.nodes m).parent ∧
      (setNode other n { other n with type := .cleared, name := [] } m).child = (other m).child ∧
      (setNode other n { other n with type := .cleared, name := [] } m).sibling = (other m).sibling := by
    intro m
    by_cases here : m = n
    · subst here
      simp [setNode, (cut.same m).2.2]
    · simp [setNode, here, (cut.same m).2.2]
  have type : ∀ m, m ≠ n →
      (setNode other n { other n with type := .cleared, name := [] } m).type = (ram.nodes m).type := fun m differ => by
    simp [setNode, differ, (cut.same m).2.1]
  constructor
  · exact tree.bounded
  · refine ⟨tree.rooted.1, ?_, ?_⟩
    · rw [type root (Ne.symm notRoot), tree.rooted.2.1]
    · rw [(pointer root).1, tree.rooted.2.2]
  · intro d below
    rw [(pointer d).2.1]
    refine Siblings.congr ?_ fun c _ => (pointer c).2.2
    by_cases here : d = par
    · rw [here]
      exact cut.list (tree.lists par (by omega)) (tree.kids_nodup (by omega))
    · have apart : ∀ c ∈ kids d, c ∉ kids par := by
        intro c member too
        have one := ((tree.kin d below c).mp member).2.1
        have two := ((tree.kin par (by omega) c).mp too).2.1
        rw [one] at two
        exact here (Option.some.inj two)
      have missing : n ∉ kids d := fun member => by
        have is := ((tree.kin d below n).mp member).2.1
        rw [parent] at is
        exact here (Option.some.inj is).symm
      rw [filter_ne_self missing, cut.child_eq here]
      exact (tree.lists d below).congr fun c member => cut.sibling_eq (apart c member)
  · intro d below c
    rw [mem_filter, tree.kin d below c, (pointer c).1]
    by_cases here : c = n
    · simp [here, setNode]
    · rw [type c here]
      simp [here]
  · intro d below nonempty
    have before : kids d ≠ [] := fun none => nonempty (by rw [none]; rfl)
    have differ : d ≠ n := fun same => before (same ▸ childless)
    rw [type d differ]
    exact tree.dirs d below before
  · intro c below top
    rw [(pointer c).1]
    exact tree.parents c below top
  · intro c below e sibling
    rw [(pointer c).2.2] at sibling
    rcases cut.sibling_cases (tree.lists par (by omega)) c with same | ⟨led, now⟩
    · rw [same] at sibling
      exact tree.siblings c below e sibling
    · rw [now] at sibling
      exact Nat.lt_trans (tree.siblings n inside e sibling) (tree.siblings c below n led)

end GWKernel.Vfs
