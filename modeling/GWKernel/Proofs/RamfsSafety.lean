import GWKernel.Proofs.FatConsistency
import GWKernel.Proofs.VfsOperations

/-! The linked nodes of the RAMFS form a tree in every state of a run, also when the current
directory has been removed. -/

namespace GWKernel.Vfs
open Lib

variable {ram : Ramfs} {kids : Nat → List Nat}

/-- A finite tree, said of the pointers alone. -/
structure IsTree (ram : Ramfs) : Prop where
  bounded : ram.nodeCount ≤ 128
  allocated : ∀ n, Linked ram.nodes n → n < ram.nodeCount
  listed : ∀ d, Linked ram.nodes d → ∃ cs, Siblings ram.nodes (ram.nodes d).child cs
  once : ∀ n, Linked ram.nodes n → n ≠ root → ∃ d cs, (ram.nodes n).parent = some d ∧ Linked ram.nodes d ∧
    (ram.nodes d).type = .dir ∧ Siblings ram.nodes (ram.nodes d).child cs ∧ cs.count n = 1
  elsewhere : ∀ d cs n, Linked ram.nodes d → Siblings ram.nodes (ram.nodes d).child cs → n ∈ cs →
    n ≠ root ∧ (ram.nodes n).parent = some d
  dirs : ∀ d, Linked ram.nodes d → (ram.nodes d).child ≠ none → (ram.nodes d).type = .dir
  parents : ∀ n < ram.nodeCount, ¬Relation.TransGen (fun a b => (ram.nodes a).parent = some b) n n
  siblings : ∀ n < ram.nodeCount, ¬Relation.TransGen (fun a b => (ram.nodes a).sibling = some b) n n

theorem acyclic_of_decreasing {next : Nat → Option Nat} {count : Nat}
    (decreases : ∀ a < count, ∀ b, next a = some b → b < a) {n : Nat} (inside : n < count) :
    ¬Relation.TransGen (fun a b => next a = some b) n n := by
  have below {m : Nat} (chain : Relation.TransGen (fun a b => next a = some b) n m) : m < n := by
    induction chain with
    | single step => exact decreases n inside _ step
    | tail _ step ih => exact Nat.lt_trans (decreases _ (Nat.lt_trans ih inside) _ step) ih
  exact fun cycle => Nat.lt_irrefl n (below cycle)

theorem Tree.isTree (tree : Tree ram kids) : IsTree ram := by
  have inside {n : Nat} (linked : Linked ram.nodes n) := (tree.linked_iff.mp linked).1
  have same {d : Nat} {cs : List Nat} (linked : Linked ram.nodes d)
      (list : Siblings ram.nodes (ram.nodes d).child cs) : cs = kids d := list.unique (tree.lists d (inside linked))
  refine ⟨tree.bounded, fun n => inside, fun d linked => ⟨kids d, tree.lists d (inside linked)⟩, ?_, ?_, ?_, ?_, ?_⟩
  · intro n linked notRoot
    obtain ⟨below, live⟩ := tree.linked_iff.mp linked
    obtain ⟨d, older, parent⟩ := tree.parents n below notRoot
    obtain ⟨isInside, isDir⟩ := tree.parent_dir below parent live
    have member := (tree.kin d isInside n).mpr ⟨below, parent, live⟩
    have live : (ram.nodes d).type ≠ .cleared := by
      rw [isDir]
      exact NodeType.noConfusion
    exact ⟨d, kids d, parent, tree.linked_iff.mpr ⟨isInside, live⟩, isDir, tree.lists d isInside,
      List.count_eq_one_of_mem (tree.kids_nodup isInside) member⟩
  · intro d cs n linked list member
    rw [same linked list] at member
    obtain ⟨below, parent, _⟩ := (tree.kin d (inside linked) n).mp member
    refine ⟨fun top => ?_, parent⟩
    rw [top, tree.rooted.2.2] at parent
    cases parent
  · intro d linked some
    refine tree.dirs d (inside linked) fun empty => some ?_
    have list := tree.lists d (inside linked)
    rw [empty] at list
    generalize (ram.nodes d).child = start at list
    cases list
    rfl
  · exact fun n => acyclic_of_decreasing fun a below b => tree.parent_lt below
  · exact fun n => acyclic_of_decreasing tree.siblings

theorem linked_before {now : Nat → List Nat} {other : Ramfs} (tree : Tree ram kids) (later : Tree other now)
    (ages : Ages ram other) {n : Nat} (below : n < ram.nodeCount) (linked : Linked other.nodes n) :
    Linked ram.nodes n :=
  tree.linked_iff.mpr ⟨below, fun cleared => (later.linked_iff.mp linked).2 (ages.cleared n below cleared)⟩

/-- Whatever calls follow `vfs_init`, the linked nodes form a tree, an unlinked node is not linked
again, and `lookup_rel` terminates from every node on every path. -/
theorem ramfs_stays_tree {fuel : Nat} {blank start middle final : State} {calls more : List Call}
    (began : vfsInit fuel blank = some start) (run : Run Step start calls middle) (rest : Run Step middle more final) :
    IsTree middle.ram ∧
      (∀ n < middle.ram.nodeCount, ¬Linked middle.ram.nodes n → ¬Linked final.ram.nodes n) ∧
      ∀ base < middle.ram.nodeCount, ∀ path, ∃ found, lookupRel middle.ram.nodes (maxNodes + 1) base path = some found := by
  have consistent := (Run.keeps run (vfsInit_consistent began)).1
  obtain ⟨⟨now, later, _⟩, ages⟩ := Run.keeps rest consistent
  obtain ⟨kids, tree, _⟩ := consistent
  refine ⟨tree.isTree, fun n below unlinked linked => unlinked (linked_before tree later ages below linked), ?_⟩
  intro base inside path
  rcases lookupRel_eq tree inside path (maxNodes + 1) with ⟨_, short⟩ | found
  · omega
  · exact ⟨_, found⟩

def bareState : State :=
  ⟨⟨fun _ => Node.zero, 0, fun _ => 0, [some fun _ => 0], []⟩, 0, .c, Fat.unmounted, ⟨fun _ _ => 0, fun _ => 0, []⟩⟩

def boot (fuel : Nat) (blank : State) (calls : List Call) : Option State :=
  (vfsInit fuel blank).bind fun start => calls.foldlM (fun state call => call.run fuel state) start

theorem run_of_foldlM {fuel : Nat} {calls : List Call} {state after : State}
    (ran : calls.foldlM (fun state call => call.run fuel state) state = some after) : Run Step state calls after := by
  induction calls generalizing state with
  | nil =>
    cases ran
    exact .done _
  | cons call rest ih =>
    obtain ⟨middle, first, ran⟩ := Option.bind_eq_some_iff.mp ran
    exact .next ⟨fuel, first⟩ (ih ran)

theorem boot_runs {fuel : Nat} {blank after : State} {calls : List Call} (ran : boot fuel blank calls = some after) :
    ∃ start, vfsInit fuel blank = some start ∧ Run Step start calls after := by
  obtain ⟨start, began, ran⟩ := Option.bind_eq_some_iff.mp ran
  exact ⟨start, began, run_of_foldlM ran⟩

theorem ramfs_stays_tree_without_home : ∃ start middle, vfsInit 129 bareState = some start ∧
    Run Step start [.unlink (text "readme.txt"), .unlink (text "."), .mkdir (text "C:/Temp/x")] middle ∧
    IsTree middle.ram := by
  have returns : (boot 129 bareState
      [.unlink (text "readme.txt"), .unlink (text "."), .mkdir (text "C:/Temp/x")]).isSome = true := by
    decide +kernel
  obtain ⟨middle, ran⟩ := Option.isSome_iff_exists.mp returns
  obtain ⟨start, began, run⟩ := boot_runs ran
  exact ⟨start, middle, began, run, (ramfs_stays_tree began run (.done middle)).1⟩

end GWKernel.Vfs
