import GWKernel.Proofs.HeapLeases
import GWKernel.Proofs.RamfsContents
import GWKernel.Proofs.RamfsCreate

/-! What directories on drive C are made of: names that occur once, nodes from a table
whose entries are not used again, and buffers that are not freed. -/

open GWKernel.Heap (World PageSource PageContract heapInit heapUsedBytes traced scripted)

namespace GWKernel.Vfs
open Lib Option

variable {state after : State} {ram other : Ramfs} {kids : Nat → List Nat} {path name : List UInt8} {call : Call}
  {par n fuel : Nat} {type : NodeType}

def Distinct (ram : Ramfs) : Prop :=
  ∀ par c d, Linked ram.nodes c → Linked ram.nodes d → (ram.nodes c).parent = some par →
    (ram.nodes d).parent = some par → (ram.nodes c).name = (ram.nodes d).name → c = d

/-- A node that the call makes has no drive letter in its name. -/
def Call.plain : Call → Bool
  | .mkdir path | .createFile path | .write path _ => !namesC (splitParent path).2
  | .read _ _ | .unlink _ | .chdir _ => true

theorem Distinct.kept (distinct : Distinct ram) (old : ∀ c, Linked other.nodes c → Linked ram.nodes c ∧
    (other.nodes c).name = (ram.nodes c).name ∧ (other.nodes c).parent = (ram.nodes c).parent) : Distinct other := by
  intro par c d first second parent same names
  obtain ⟨linked, name, up⟩ := old c first
  obtain ⟨also, alike, above⟩ := old d second
  rw [up] at parent
  rw [above] at same
  rw [name, alike] at names
  exact distinct par c d linked also parent same names

section Changes

variable (tree : Tree ram kids) (unique : Distinct ram)
include tree unique

theorem SameTree.distinct (same : SameTree ram other) : Distinct other := by
  refine unique.kept fun c linked => ⟨?_, same.name c, same.parent c⟩
  rw [tree.linked_iff, ← same.count, ← same.type]
  exact (same.tree tree).linked_iff.mp linked

theorem Removed.distinct (inside : n < ram.nodeCount) (removed : Removed ram kids n other) : Distinct other := by
  obtain ⟨⟨now, later⟩, ages⟩ := removed.keeps tree inside
  refine unique.kept fun c linked => ?_
  obtain ⟨below, live⟩ := later.linked_iff.mp linked
  refine ⟨linked_before tree later ages (removed.count ▸ below) linked, ?_⟩
  cases removed with
  | cut _ _ _ cut =>
    have differ : c ≠ n := by
      rintro rfl
      exact live (by simp [setNode])
    obtain ⟨name, _, parent⟩ := cut.same c
    simp [setNode, differ, name, parent]

theorem Added.distinct (added : Added ram other par n name type) (inside : par < ram.nodeCount)
    (isDir : (ram.nodes par).type = .dir) (kept : type ≠ .cleared) (short : strcpy name nameMax = name)
    (free : (kids par).find? (fun c => decide ((ram.nodes c).name = name)) = none) : Distinct other := by
  have later := added.tree tree inside isDir kept
  have old : ∀ c, Linked other.nodes c → c = n ∨ Linked ram.nodes c ∧
      (other.nodes c).name = (ram.nodes c).name ∧ (other.nodes c).parent = (ram.nodes c).parent := by
    intro c linked
    obtain ⟨below, live⟩ := later.linked_iff.mp linked
    rcases Nat.lt_or_eq_of_le (Nat.lt_succ_iff.mp (added.count ▸ below)) with below | new
    · obtain ⟨name, type, parent, _⟩ := added.old (added.fresh ▸ below)
      exact .inr ⟨tree.linked_iff.mpr ⟨added.fresh ▸ below, type ▸ live⟩, name, parent⟩
    · exact .inl new
  have alone : ∀ c, Linked ram.nodes c → (ram.nodes c).parent = some par → (ram.nodes c).name ≠ name := by
    intro c linked parent names
    obtain ⟨below, live⟩ := tree.linked_iff.mp linked
    have missing := List.find?_eq_none.mp free c ((tree.kin par inside c).mpr ⟨below, parent, live⟩)
    exact missing (decide_eq_true names)
  intro up c d first second parent same names
  rcases old c first with rfl | ⟨linked, name, above⟩ <;> rcases old d second with rfl | ⟨also, alike, above'⟩
  · rfl
  · rw [added.node] at parent names
    cases parent
    exact absurd (alike.symm.trans (names.symm.trans short)) (alone d also (above' ▸ same))
  · rw [added.node] at same names
    cases same
    exact absurd (name.symm.trans (names.trans short)) (alone c linked (above ▸ parent))
  · rw [above] at parent
    rw [above'] at same
    rw [name, alike] at names
    exact unique up c d linked also parent same names

end Changes

theorem Creates.distinct (tree : Tree state.ram kids) (distinct : Distinct state.ram)
    (creates : Creates state kids path other) (plain : (!namesC (splitParent path).2) = true) : Distinct other := by
  cases creates with
  | data same => exact same.tree.distinct tree distinct
  | added inside isDir kept added named missing same =>
    obtain ⟨separators, short⟩ := splitParent_name path
    rw [follow_name isDir (down_of_missing named missing) separators short (Bool.not_eq_true' _ ▸ plain)] at missing
    exact same.tree.distinct (added.tree tree inside isDir kept)
      (added.distinct tree distinct inside isDir kept (strcpy_splitParent path) missing)

theorem Step.distinct (consistent : Consistent state) (distinct : Distinct state.ram) (step : Step state call after)
    (plain : call.plain = true) : Distinct after.ram := by
  obtain ⟨kids, tree, home⟩ := consistent
  cases step.ramStep tree home with
  | creates is creates _ =>
    refine creates.distinct tree distinct ?_
    rcases is with rfl | rfl | ⟨_, rfl⟩ <;> exact plain
  | moves same _ => exact same ▸ distinct
  | removes _ _ _ inside removed _ => exact removed.distinct tree distinct inside

theorem Run.distinct {calls : List Call} (run : Run Step state calls after) (plain : ∀ call ∈ calls, call.plain = true)
    (consistent : Consistent state) (distinct : Distinct state.ram) : Distinct after.ram := by
  have kept : ∀ before call after, Consistent before ∧ Distinct before.ram → Step before call after ∧ call.plain = true →
      Consistent after ∧ Distinct after.ram :=
    fun _ _ _ held moves => ⟨(moves.1.keeps held.1).1, moves.1.distinct held.1 held.2 moves.2⟩
  exact ((run.and_events plain).preserves kept ⟨consistent, distinct⟩).2

theorem rooted_distinct (blank : State) : Consistent (rooted blank) ∧ Distinct (rooted blank).ram := by
  have tree : Tree (rooted blank).ram fun _ => [] := tree_root _ rfl rfl
  refine ⟨⟨_, tree, Nat.one_pos⟩, fun par c d first second _ _ _ => ?_⟩
  have low : c < 1 := (tree.linked_iff.mp first).1
  have also : d < 1 := (tree.linked_iff.mp second).1
  omega

/-- As long as no new node gets a name with a drive letter, no directory has two children of one
name. -/
theorem names_distinct {blank start : State} {calls : List Call} (began : vfsInit fuel blank = some start)
    (run : Run Step start calls state) (plain : ∀ call ∈ calls, call.plain = true) : Distinct state.ram := by
  rw [vfsInit_eq] at began
  obtain ⟨consistent, distinct⟩ := rooted_distinct blank
  have first := run_of_foldlM began
  exact Run.distinct run plain (Run.keeps first consistent).1
    (Run.distinct first (by decide) consistent distinct)

theorem names_distinct_docs : ∃ start state, vfsInit 129 bareState = some start ∧
    Run Step start [.mkdir (text "docs"), .mkdir (text "docs")] state ∧ Distinct state.ram := by
  have runs : (boot 129 bareState [.mkdir (text "docs"), .mkdir (text "docs")]).isSome = true := by decide +kernel
  obtain ⟨state, ran⟩ := isSome_iff_exists.mp runs
  obtain ⟨start, began, run⟩ := boot_runs ran
  exact ⟨start, state, began, run, names_distinct began run (by decide)⟩

/-- `vfs_mkdir("C:x")` looks for `x` and makes a directory called `C:x`, each time anew. -/
theorem drive_letter_twice : ∃ start state, vfsInit 129 bareState = some start ∧
    Run Step start [.mkdir (text "C:x"), .mkdir (text "C:x")] state ∧ state.drive = .c ∧ ¬Distinct state.ram := by
  have facts : (boot 129 bareState [.mkdir (text "C:x"), .mkdir (text "C:x")]).map (fun state =>
      (state.drive, state.ram.nodeCount, [8, 9].all fun n => decide ((state.ram.nodes n).type = .dir ∧
        (state.ram.nodes n).parent = some 3 ∧ (state.ram.nodes n).name = text "C:x"))) = some (.c, 10, true) := by
    decide +kernel
  obtain ⟨state, ran, is⟩ := map_eq_some_iff.mp facts
  obtain ⟨start, began, run⟩ := boot_runs ran
  simp only [Prod.mk.injEq, List.all_eq_true, decide_eq_true_eq] at is
  obtain ⟨drive, count, nodes⟩ := is
  obtain ⟨typeC, parentC, nameC⟩ := nodes 8 (by decide)
  obtain ⟨typeD, parentD, nameD⟩ := nodes 9 (by decide)
  obtain ⟨kids, tree, _⟩ := (Run.keeps run (vfsInit_consistent began)).1
  refine ⟨start, state, began, run, drive, fun distinct => ?_⟩
  have same := distinct 3 8 9 (tree.linked_iff.mpr ⟨by omega, by simp [typeC]⟩)
    (tree.linked_iff.mpr ⟨by omega, by simp [typeD]⟩) parentC parentD (nameC.trans nameD.symm)
  omega

structure Nameable (state : State) (fuel : Nat) (path : List UInt8) (par : Nat) : Prop where
  target : namesD path = false
  parent : parentOf state fuel path = some par
  isDir : (state.ram.nodes par).type = .dir
  down : (splitParent path).2 ≠ [] ∧ (splitParent path).2 ≠ [0x2E] ∧ (splitParent path).2 ≠ [0x2E, 0x2E]
  letter : namesC (splitParent path).2 = false
  free : NoNamesake state fuel par (splitParent path).2

theorem Nameable.mkdir_iff (tree : Tree state.ram kids) (home : state.cwd < state.ram.nodeCount)
    (enough : maxNodes < fuel) (onC : state.drive = .c) (nameable : Nameable state fuel path par) :
    (∃ after, vfsMkdir fuel path state = some (true, after)) ↔ state.ram.nodeCount < maxNodes := by
  constructor
  · rintro ⟨after, made⟩
    obtain ⟨_, created⟩ := Makes.created tree home enough onC nameable.target (show Makes _ _ _ .dir _ from made)
    exact created.creatable.room
  · intro room
    have toC : (parseDrive state.drive path).1 = .c := by
      rw [onC, parseDrive_onC]
      exact nameable.target
    have inside : par < state.ram.nodeCount := by
      have placed := nameable.parent
      rw [parentOf_eq tree home enough] at placed
      exact place_inside tree home placed
    obtain ⟨separators, short⟩ := splitParent_name path
    have new : lookupRel state.ram.nodes fuel par (splitParent path).2 = some none := by
      rw [lookupRel_returns tree enough inside, follow_name nameable.isDir nameable.down separators short nameable.letter,
        (noNamesake_iff tree enough inside).mp nameable.free]
    obtain ⟨n, ram, made, _⟩ := Creatable.made tree home enough
      ⟨toC, nameable.down.1, nameable.parent, nameable.isDir, new, room⟩ .dir
    refine ⟨{ state with ram := ram }, ?_⟩
    unfold vfsMkdir
    dsimp only
    rw [if_neg (by rw [toC, onC]; decide), made]
    rfl

theorem Step.log (consistent : Consistent state) (step : Step state call after) :
    state.ram.kmallocs <:+ after.ram.kmallocs := by
  obtain ⟨kids, tree, home⟩ := consistent
  cases step.ramStep tree home with
  | creates _ creates _ =>
    generalize after.ram = ram at creates
    cases creates with
    | data same => exact same.log
    | added _ _ _ added _ _ same => exact added.memory.2.2 ▸ same.log
  | moves same _ => exact same ▸ List.suffix_rfl
  | removes _ _ _ _ removed _ =>
    generalize after.ram = ram at removed
    cases removed with
    | cut => exact List.suffix_rfl

theorem Run.log {calls : List Call} (run : Run Step state calls after) (consistent : Consistent state) :
    state.ram.kmallocs <:+ after.ram.kmallocs := by
  induction run with
  | done => exact List.suffix_rfl
  | next step _ ih => exact (step.log consistent).trans (ih (step.keeps consistent).1)

theorem vfsCreateFile_log (tree : Tree state.ram kids) (home : state.cwd < state.ram.nodeCount) (onC : state.drive = .c)
    (target : namesD path = false) (ran : vfsCreateFile fuel path state = some (true, after)) :
    after.ram.kmallocs = 512 :: state.ram.kmallocs := by
  have toC : (parseDrive state.drive path).1 = .c := by rwa [onC, parseDrive_onC]
  obtain ⟨n, ram, made, rfl⟩ := vfsCreateFile_true onC toC ran
  obtain ⟨par, _, _, added, _⟩ := addNode_spec tree home made
  rw [vfsCreateFile_made onC toC made] at ran
  have granted := (giveBuffer_spec ram n).1.mp (congrArg Prod.fst (Option.some.inj ran))
  exact (added.give granted).2.2.1

/-- The heap that the buffers come from between two states of the VFS, which frees none. -/
def Supplies {π : Type} (allocPages : PageSource π) (state after : State) (world later : World π) : Prop :=
  ∃ events, Run (GWKernel.Heap.Step allocPages) world events later ∧ (∀ ptr, .kfree ptr ∉ events) ∧
    later.live.length + state.ram.kmallocs.length = world.live.length + after.ram.kmallocs.length

/-- A new directory is made exactly while the table has nodes that were never in use, and no file
that was made and removed leaves the heap as it was. -/
theorem nodes_and_buffers_kept {π : Type} {allocPages : PageSource π} {owns : π → List Span → Prop} {first size : Nat}
    {blank start : State} {calls : List Call} {boot heap : GWKernel.Heap.State (π × List Span)} {events : List GWKernel.Heap.Event}
    {world : World π} (began : vfsInit first blank = some start) (run : Run Step start calls state)
    (onC : state.drive = .c) (enough : maxNodes < fuel) (contract : PageContract allocPages owns)
    (fresh : boot.pmm.2 = []) (held : owns boot.pmm.1 []) (started : heapInit (traced allocPages) size boot = some (true, heap))
    (used : Run (GWKernel.Heap.Step allocPages) ⟨heap, []⟩ events world) :
    (∀ path par, Nameable state fuel path par →
      ((∃ after, vfsMkdir fuel path state = some (true, after)) ↔ state.ram.nodeCount < maxNodes)) ∧
    ∀ path made more last after later, namesD path = false → vfsCreateFile fuel path state = some (true, made) →
      Run Step made more last → vfsUnlink fuel path last = some (true, after) →
      Supplies allocPages state after world later → heapUsedBytes world.heap < heapUsedBytes later.heap := by
  have consistent := (Run.keeps run (vfsInit_consistent began)).1
  have ⟨kids, tree, home⟩ := consistent
  refine ⟨fun path par nameable => nameable.mkdir_iff tree home enough onC, ?_⟩
  intro path made more last after later target creates between unlinks ⟨asked, supplies, kept, count⟩
  have step : Step state (.createFile path) made := ⟨fuel, by rw [Call.run, creates]; rfl⟩
  have consistent := (step.keeps consistent).1
  have grown := vfsCreateFile_log tree home onC target creates
  have longer := (Run.log between consistent).length_le
  have longest := (Step.log (Run.keeps between consistent).1
    (⟨fuel, by rw [Call.run, unlinks]; rfl⟩ : Step last (.unlink path) after)).length_le
  have sound := used.preserves (fun _ _ _ sound moves => GWKernel.Heap.World.Sound.step contract sound moves)
    (GWKernel.Heap.heapInit_sound contract fresh held started)
  have bytes := GWKernel.Heap.Run.used_le contract sound supplies kept
  rw [grown, List.length_cons] at longer
  unfold heapUsedBytes
  simp only [GWKernel.Heap.headerSize] at bytes
  omega

theorem nodes_and_buffers_kept_docs : ∃ start heap after, vfsInit 129 bareState = some start ∧
    heapInit (traced scripted) 8 ⟨fun _ => 0, 0, 0, 0, false, [0x100000], []⟩ = some (true, heap) ∧
    vfsMkdir 129 (text "docs") start = some (true, after) := by
  have facts : (vfsInit 129 bareState).map (fun start => (start.drive, start.ram.nodeCount, (start.ram.nodes 3).type,
      parentOf start 129 (text "docs"), findChild start.ram.nodes 129 (start.ram.nodes 3).child (text "docs"))) =
      some (.c, 8, .dir, some 3, some none) := by decide +kernel
  obtain ⟨start, began, is⟩ := map_eq_some_iff.mp facts
  simp only [Prod.mk.injEq] at is
  obtain ⟨onC, count, isDir, parent, free⟩ := is
  have starts : (heapInit (traced scripted) 8 ⟨fun _ => 0, 0, 0, 0, false, [0x100000], []⟩).map Prod.fst = some true := by
    decide +kernel
  obtain ⟨⟨_, heap⟩, started, rfl⟩ := map_eq_some_iff.mp starts
  obtain ⟨mkdir, _⟩ := nodes_and_buffers_kept began (.done start) onC (by decide : maxNodes < 129)
    GWKernel.Heap.scripted_contract rfl ⟨by simp, by decide⟩ started (.done _)
  obtain ⟨after, made⟩ := (mkdir (text "docs") 3 ⟨by decide, parent, isDir, by decide, by decide, free⟩).mpr
    (by rw [count]; decide)
  exact ⟨start, heap, after, began, started, made⟩

/-- The 512 bytes of a file that is made and removed at once stay allocated. -/
theorem removed_file_keeps_buffer : ∃ start made after world later, vfsInit 129 fedMachine.state = some start ∧
    start.drive = .c ∧ vfsCreateFile 129 (text "a") start = some (true, made) ∧
    vfsUnlink 129 (text "a") made = some (true, after) ∧ Supplies scripted start after world later ∧
    heapUsedBytes world.heap = 0 ∧ heapUsedBytes later.heap = 536 := by
  have facts : ((vfsInit 129 fedMachine.state).bind fun start => (vfsCreateFile 129 (text "a") start).bind fun made =>
      (vfsUnlink 129 (text "a") made.2).map fun after => (start.drive, made.1, after.1, start.ram.kmallocs.length,
        after.2.ram.kmallocs.length)) = some (.c, true, true, 1, 2) := by decide +kernel
  obtain ⟨start, began, facts⟩ := bind_eq_some_iff.mp facts
  obtain ⟨⟨_, made⟩, creates, facts⟩ := bind_eq_some_iff.mp facts
  obtain ⟨⟨_, after⟩, unlinks, is⟩ := map_eq_some_iff.mp facts
  simp only [Prod.mk.injEq] at is
  obtain ⟨onC, rfl, rfl, before, asked⟩ := is
  have bytes : ((heapInit (traced scripted) 8 ⟨fun _ => 0, 0, 0, 0, false, [0x100000], []⟩).bind fun started =>
      (GWKernel.Heap.kmalloc (traced scripted) 8 512 started.2).map fun given =>
        (given.1, started.2.used, given.2.used)) = some (0x100018, 0, 536) := by decide +kernel
  obtain ⟨⟨_, heap⟩, -, bytes⟩ := bind_eq_some_iff.mp bytes
  obtain ⟨⟨_, later⟩, returned, is⟩ := map_eq_some_iff.mp bytes
  simp only [Prod.mk.injEq] at is
  obtain ⟨rfl, none, some⟩ := is
  refine ⟨start, made, after, ⟨heap, []⟩, _, began, onC, creates, unlinks, ⟨[.kmalloc 512], .next (.kmalloc (by decide) returned)
    (.done _), by simp, ?_⟩, none, some⟩
  rw [before, asked]
  rfl

end GWKernel.Vfs
