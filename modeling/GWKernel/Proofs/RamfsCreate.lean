import GWKernel.Proofs.FailedCalls

/-! Whether a new directory or file is found under the path that it was made with. `split_parent`
and `vfs_lookup` part ways at a leading separator without a directory, at a drive letter without a
separator, at long names, and where the name begins with a drive letter. -/

namespace GWKernel.Vfs
open Lib List Option
open Fat (isSeparator)

variable {fuel : Nat} {state after : State} {path : List UInt8} {kids : Nat → List Nat} {type : NodeType}

/-- A call of `vfs_mkdir` or `vfs_create_file` that returns 0, by the type of node that it
makes. -/
def Makes (fuel : Nat) (path : List UInt8) (state : State) : NodeType → State → Prop
  | .dir, after => vfsMkdir fuel path state = some (true, after)
  | .file, after => vfsCreateFile fuel path state = some (true, after)
  | .cleared, _ => False

structure New (before after : State) (type : NodeType) (n : Nat) : Prop where
  free : before.ram.nodeCount ≤ n
  used : n < after.ram.nodeCount
  type : (after.ram.nodes n).type = type
  empty : (after.ram.nodes n).child = none ∧ (after.ram.nodes n).size = 0

/-- The path leads to the new node, and every path that led somewhere still leads there. -/
structure MadeAt (fuel : Nat) (path : List UInt8) (before : State) (type : NodeType) (after : State) : Prop where
  found : ∃ n, vfsLookup after fuel path = some (some n) ∧ New before after type n
  kept : ∀ other n, vfsLookup before fuel other = some (some n) → vfsLookup after fuel other = some (some n)

def NoNamesake (state : State) (fuel par : Nat) (name : List UInt8) : Prop :=
  findChild state.ram.nodes fuel (state.ram.nodes par).child name = some none

/-- The pieces of the path lead to the new node, and it hides no other. -/
def Findable (state : State) (fuel : Nat) (path : List UInt8) : Prop :=
  namesD path = false ∧ ∃ par, parentOf state fuel path = some par ∧ landing state fuel par path = some none ∧
    NoNamesake state fuel par (splitParent path).2

/-- `split_parent` cuts nothing off. -/
def Fits (path : List UInt8) : Prop :=
  path.length < pathMax ∧ ∀ last, last <:+ path → (∀ char ∈ last, isSeparator char = false) → last.length < nameMax

/-- Without a directory the path has no drive letter, and begins with a separator only in the
root; and a name that begins with a drive letter is not taken. -/
def Plain (state : State) (fuel : Nat) (path : List UInt8) : Prop :=
  namesD path = false ∧
    ((splitParent path).1 = [] →
      namesC path = false ∧ ((path.head?.map isSeparator).getD false = true → state.cwd = root)) ∧
    (namesC (splitParent path).2 = true →
      ∀ par, parentOf state fuel path = some par → NoNamesake state fuel par (splitParent path).2)

structure Created (state : State) (fuel : Nat) (path : List UInt8) (type : NodeType) (par : Nat) (after : State) :
    Prop where
  creatable : Creatable state fuel path par
  added : ∃ ram, Added state.ram ram par state.ram.nodeCount (splitParent path).2 type ∧ SameTree ram after.ram
  live : type ≠ .cleared
  size : (after.ram.nodes state.ram.nodeCount).size = 0
  cwd : after.cwd = state.cwd
  drive : after.drive = state.drive

theorem giveBuffer_size {ram : Ramfs} {n : Nat} (empty : (ram.nodes n).size = 0) :
    ((giveBuffer ram n).2.nodes n).size = 0 := by
  have nodes := kmalloc_nodes { ram with nodes := setNode ram.nodes n { ram.nodes n with capacity := 512 } } 512
  unfold giveBuffer
  dsimp only
  generalize kmalloc { ram with nodes := setNode ram.nodes n { ram.nodes n with capacity := 512 } } 512 = outcome
    at nodes ⊢
  obtain ⟨data, middle⟩ := outcome
  dsimp only at nodes
  cases data <;> simp [setNode, nodes, empty]

section Made

variable (tree : Tree state.ram kids) (home : state.cwd < state.ram.nodeCount) (enough : maxNodes < fuel)
  (onC : state.drive = .c)
include tree home enough onC

theorem Makes.created (target : namesD path = false) (makes : Makes fuel path state type after) :
    ∃ par, Created state fuel path type par after := by
  have toC : (parseDrive state.drive path).1 = .c := by rwa [onC, parseDrive_onC]
  cases type with
  | cleared => exact makes.elim
  | dir =>
    change vfsMkdir fuel path state = some (true, after) at makes
    unfold vfsMkdir at makes
    dsimp only at makes
    rw [if_neg (by rw [toC, onC]; decide)] at makes
    obtain ⟨outcome, made, ran⟩ := bind_eq_some_iff.mp makes
    cases outcome with
    | none => cases ran
    | some made_ =>
      obtain ⟨n, ram⟩ := made_
      cases ran
      obtain ⟨par, creatable, added⟩ := creatable_of_made tree home enough toC made
      obtain rfl := added.fresh
      exact ⟨par, creatable, ⟨ram, added, .refl ram⟩, NodeType.noConfusion, by rw [added.node]; rfl, rfl, rfl⟩
  | file =>
    obtain ⟨n, ram, made, rfl⟩ := vfsCreateFile_true onC toC makes
    obtain ⟨par, creatable, added⟩ := creatable_of_made tree home enough toC made
    obtain rfl := added.fresh
    refine ⟨par, creatable, ⟨ram, added, (fills_giveBuffer ram _).same.tree⟩, NodeType.noConfusion, ?_, rfl, rfl⟩
    exact giveBuffer_size (by rw [added.node]; rfl)

theorem Created.lookup {par : Nat} {other : List UInt8} (created : Created state fuel path type par after)
    (target : namesD other = false) :
    vfsLookup after fuel other = some (((pieces (stripC other).length (stripC other)).foldlM
      (hopWith state.ram.nodes fuel par (splitParent path).2) (some (startOf state other))).map
        (·.getD state.ram.nodeCount)) := by
  obtain ⟨ram, added, same⟩ := created.added
  have inside := created.creatable.inside tree home enough
  have grown : Tree after.ram (withNew kids par state.ram.nodeCount) :=
    same.tree (added.tree tree inside created.creatable.isDir created.live)
  have home' : after.cwd < after.ram.nodeCount := by
    rw [created.cwd, same.count, added.count]
    omega
  rw [vfsLookup_returns grown home' enough, resolve_added tree home enough inside added (strcpy_splitParent path) same
    created.cwd (created.drive.trans onC) onC (by rwa [onC, parseDrive_onC])]

theorem Created.found_iff {par : Nat} (created : Created state fuel path type par after) (target : namesD path = false) :
    (∃ n, vfsLookup after fuel path = some (some n) ∧ New state after type n) ↔
      landing state fuel par path = some none := by
  have inside := created.creatable.inside tree home enough
  have is : vfsLookup after fuel path = some ((landing state fuel par path).map (·.getD state.ram.nodeCount)) :=
    created.lookup tree home enough onC target
  constructor
  · rintro ⟨n, found, new⟩
    rw [is, some_inj, map_eq_some_iff] at found
    obtain ⟨place, landed, rfl⟩ := found
    cases place with
    | none => exact landed
    | some m =>
      have below := hopsWith_inside tree enough inside (startOf_inside tree home path) landed m rfl
      exact absurd new.free (Nat.not_le.mpr below)
  · intro landed
    obtain ⟨ram, added, same⟩ := created.added
    rw [is, landed]
    refine ⟨state.ram.nodeCount, rfl, Nat.le_refl _, ?_, ?_, ?_, created.size⟩
    · rw [same.count, added.count]
      exact Nat.lt_succ_self _
    · rw [same.type, added.node]
    · rw [same.child, added.node]
      rfl

end Made

section Kept

variable {par : Nat} {name : List UInt8} (tree : Tree state.ram kids) (enough : maxNodes < fuel)
include tree enough

theorem noNamesake_iff (inside : par < state.ram.nodeCount) : NoNamesake state fuel par name ↔
    (kids par).find? (fun c => decide ((state.ram.nodes c).name = name)) = none := by
  unfold NoNamesake
  rw [findChild_returns tree enough inside, some_inj]

theorem hopWith_of_hop {cur next : Nat} {part : List UInt8} (inside : cur < state.ram.nodeCount)
    (free : NoNamesake state fuel par name) (hops : hop state.ram kids cur part = some next) :
    hopWith state.ram.nodes fuel par name (some cur) part = some (some next) := by
  unfold hop at hops
  unfold hopWith
  split at hops
  next stay =>
    cases hops
    rw [if_pos stay]
  next moves =>
    rw [if_neg moves]
    dsimp only
    split at hops
    next up =>
      cases hops
      rw [if_pos up]
    next down =>
      rw [if_neg down]
      split at hops
      next => cases hops
      next isDir =>
        rw [if_neg isDir, findChild_returns tree enough inside, hops]
        refine if_neg ?_
        rintro ⟨rfl, rfl⟩
        rw [(noNamesake_iff tree enough inside).mp free] at hops
        cases hops

theorem hopsWith_of_hops {cur next : Nat} {parts : List (List UInt8)} (inside : cur < state.ram.nodeCount)
    (free : NoNamesake state fuel par name) (hops : parts.foldlM (hop state.ram kids) cur = some next) :
    parts.foldlM (hopWith state.ram.nodes fuel par name) (some cur) = some (some next) := by
  induction parts generalizing cur with
  | nil =>
    cases hops
    rfl
  | cons part rest ih =>
    obtain ⟨middle, first, others⟩ := bind_eq_some_iff.mp hops
    rw [foldlM_cons, hopWith_of_hop tree enough inside free first]
    exact ih (hop_inside tree inside first) others

theorem hopWith_name {pos : Option Nat} {c : Nat} (below : ∀ m, pos = some m → m < state.ram.nodeCount)
    (child : c ∈ kids par) (inside : par < state.ram.nodeCount) (down : name ≠ [] ∧ name ≠ [0x2E] ∧ name ≠ [0x2E, 0x2E]) :
    hopWith state.ram.nodes fuel par name pos name ≠ some (some c) := by
  intro hops
  unfold hopWith at hops
  rw [if_neg (not_or.mpr ⟨down.1, down.2.1⟩)] at hops
  cases pos with
  | none =>
    dsimp only at hops
    rw [if_neg down.2.2] at hops
    cases hops
  | some m =>
    have low := below m rfl
    dsimp only at hops
    rw [if_neg down.2.2, findChild_returns tree enough low] at hops
    split at hops
    next => cases hops
    split at hops
    next => cases hops
    next elsewhere =>
      obtain ⟨d, found, is⟩ := map_eq_some_iff.mp hops
      cases is
      have here := ((tree.kin par inside c).mp child).2.1
      rw [((tree.kin m low c).mp (mem_of_find?_eq_some found)).2.1] at here
      exact elsewhere ⟨Option.some.inj here, rfl⟩

end Kept

section Join

variable {dir rest : List UInt8} {char : UInt8} (some : dir ≠ []) (separator : isSeparator char = true)
include some separator

theorem names_join : namesC (dir ++ char :: rest) = namesC dir ∧ namesD (dir ++ char :: rest) = namesD dir := by
  rcases dir with _ | ⟨first, _ | ⟨second, more⟩⟩
  · exact absurd rfl some
  · have notColon : (char == 0x3A) = false := by
      rw [beq_eq_false_iff_ne]
      rintro rfl
      cases separator
    simp [namesC, namesD, notColon]
  · exact ⟨rfl, rfl⟩

theorem startOf_join (state : State) : startOf state (dir ++ char :: rest) = startOf state dir := by
  unfold startOf
  rw [(names_join some separator).1, head?_append_of_ne_nil _ some]

theorem pieces_stripC_join :
    pieces (stripC (dir ++ char :: rest)).length (stripC (dir ++ char :: rest)) =
      pieces (stripC dir).length (stripC dir) ++
        pieces (rest.dropWhile isSeparator).length (rest.dropWhile isSeparator) := by
  unfold stripC
  rw [(names_join some separator).1]
  split
  next onC =>
    have long : 2 ≤ dir.length := by
      rcases dir with _ | ⟨first, _ | ⟨second, more⟩⟩
      · cases onC
      · cases onC
      · simp
    rw [drop_append_of_le_length long]
    exact pieces_strip_join _ rest separator
  next => exact pieces_strip_join dir rest separator

end Join

section Found

variable {par : Nat} (tree : Tree state.ram kids) (home : state.cwd < state.ram.nodeCount) (enough : maxNodes < fuel)
  (onC : state.drive = .c)
include tree home enough onC

section
variable (creatable : Creatable state fuel path par)
include creatable

omit onC in
theorem Creatable.missing :
    follow state.ram kids par (splitParent path).2 = none := by
  have new := creatable.new
  rwa [lookupRel_returns tree enough (creatable.inside tree home enough), some_inj] at new

omit onC in
theorem Creatable.down :
    (splitParent path).2 ≠ [] ∧ (splitParent path).2 ≠ [0x2E] ∧ (splitParent path).2 ≠ [0x2E, 0x2E] :=
  down_of_missing creatable.named (creatable.missing tree home enough)

omit creatable in
omit tree home enough onC in
theorem hopWith_new {nodes : Nat → Node} {cur : Nat} {name part : List UInt8}
    (hops : hopWith nodes fuel par name (some cur) part = some none) : cur = par ∧ part = name := by
  unfold hopWith at hops
  split at hops
  next => cases hops
  dsimp only at hops
  split at hops
  next => cases hops
  split at hops
  next => cases hops
  split at hops
  next here => exact here
  next =>
    obtain ⟨_, _, no⟩ := map_eq_some_iff.mp hops
    cases no

omit onC in
theorem Creatable.hopWith_par (cur : Nat) :
    hopWith state.ram.nodes fuel par (splitParent path).2 (some cur) (splitParent path).2 = some none ↔ cur = par := by
  refine ⟨fun hops => (hopWith_new hops).1, ?_⟩
  rintro rfl
  have down := creatable.down tree home enough
  unfold hopWith
  rw [if_neg (not_or.mpr ⟨down.1, down.2.1⟩)]
  dsimp only
  rw [if_neg down.2.2, if_neg (not_not.mpr creatable.isDir), if_pos ⟨rfl, rfl⟩]

omit tree home enough onC in
theorem Creatable.pieces_name :
    pieces ((splitParent path).2.dropWhile isSeparator).length ((splitParent path).2.dropWhile isSeparator) =
      [(splitParent path).2] :=
  pieces_part creatable.named (splitParent_name path).1 (splitParent_name path).2

end

omit onC in
theorem Creatable.noNamesake (creatable : Creatable state fuel path par) (plain : namesC (splitParent path).2 = false) :
    NoNamesake state fuel par (splitParent path).2 := by
  rw [noNamesake_iff tree enough (creatable.inside tree home enough), ← creatable.missing tree home enough]
  obtain ⟨separators, short⟩ := splitParent_name path
  exact (follow_name creatable.isDir (creatable.down tree home enough) separators short plain).symm

theorem Creatable.path_to (creatable : Creatable state fuel path par) :
    ∃ dir, dir ≠ [] ∧ namesD dir = false ∧ follow state.ram kids (startOf state dir) dir = some par := by
  have parent := creatable.parent
  rw [parentOf_eq tree home enough] at parent
  unfold place at parent
  split at parent
  next below =>
    have notD : namesD (splitParent path).1 = false := by
      by_contra onD
      rw [Bool.not_eq_false] at onD
      have missing : vfsLookup state fuel (splitParent path).1 = some none := vfsLookup_namesD onD state
      rw [vfsLookup_returns tree home enough, parent] at missing
      cases missing
    refine ⟨(splitParent path).1, below, notD, ?_⟩
    rwa [resolve_onC onC (by rwa [onC, parseDrive_onC])] at parent
  next =>
    cases parent
    exact ⟨[0x2E], cons_ne_nil _ _, rfl, rfl⟩

theorem Created.kept_iff (created : Created state fuel path type par after) :
    (∀ other n, vfsLookup state fuel other = some (some n) → vfsLookup after fuel other = some (some n)) ↔
      NoNamesake state fuel par (splitParent path).2 := by
  have creatable := created.creatable
  have inside := creatable.inside tree home enough
  have before (other : List UInt8) (target : namesD other = false) :
      vfsLookup state fuel other = some (follow state.ram kids (startOf state other) other) := by
    rw [vfsLookup_returns tree home enough, resolve_onC onC (by rwa [onC, parseDrive_onC])]
  constructor
  · intro kept
    by_contra taken
    rw [noNamesake_iff tree enough inside, ← ne_eq, ne_none_iff_exists'] at taken
    obtain ⟨c, found⟩ := taken
    have child := mem_of_find?_eq_some found
    obtain ⟨dir, some, notD, leads⟩ := creatable.path_to tree home enough onC
    have separator : isSeparator 0x2F = true := rfl
    have target : namesD (dir ++ 0x2F :: (splitParent path).2) = false := by rwa [(names_join some separator).2]
    -- The older child is behind the path to the directory and the name.
    have first : vfsLookup state fuel (dir ++ 0x2F :: (splitParent path).2) = .some (.some c) := by
      rw [before _ target, startOf_join some separator]
      unfold follow at leads ⊢
      rw [pieces_stripC_join some separator, creatable.pieces_name, foldlM_append, leads,
        bind_eq_bind, bind_some, foldlM_cons, hop_down creatable.isDir (creatable.down tree home enough), found]
      rfl
    have again := kept _ _ first
    rw [created.lookup tree home enough onC target, some_inj, map_eq_some_iff] at again
    obtain ⟨pos, walked, is⟩ := again
    rw [pieces_stripC_join some separator, creatable.pieces_name, foldlM_append,
      bind_eq_bind, bind_eq_some_iff] at walked
    obtain ⟨middle, most, last⟩ := walked
    have below := hopsWith_inside tree enough inside (startOf_inside tree home _) most
    rw [foldlM_cons, bind_eq_bind, bind_eq_some_iff] at last
    obtain ⟨end_, hops, done⟩ := last
    cases done
    cases pos with
    | none =>
      have low := tree.kid_lt inside child
      rw [← is] at low
      exact Nat.lt_irrefl _ low
    | some m =>
      cases is
      exact hopWith_name tree enough below child inside (creatable.down tree home enough) hops
  · intro free other n found
    by_cases onD : namesD other
    · rw [vfsLookup_namesD onD] at found
      cases found
    · rw [Bool.not_eq_true] at onD
      rw [before other onD, some_inj] at found
      rw [created.lookup tree home enough onC onD,
        hopsWith_of_hops tree enough (startOf_inside tree home other _ rfl) free found]
      rfl

theorem Created.madeAt_iff (created : Created state fuel path type par after) (target : namesD path = false) :
    MadeAt fuel path state type after ↔ Findable state fuel path := by
  have found := created.found_iff tree home enough onC target
  have kept := created.kept_iff tree home enough onC
  constructor
  · intro made
    exact ⟨target, par, created.creatable.parent, found.mp made.found, kept.mp made.kept⟩
  · rintro ⟨_, other, parent, landed, free⟩
    rw [created.creatable.parent, some_inj] at parent
    subst parent
    exact ⟨found.mpr landed, kept.mpr free⟩

theorem Creatable.landing_iff (creatable : Creatable state fuel path par) (fits : Fits path)
    (free : NoNamesake state fuel par (splitParent path).2) :
    landing state fuel par path = some none ↔ ((splitParent path).1 = [] →
      namesC path = false ∧ ((path.head?.map isSeparator).getD false = true → state.cwd = root)) := by
  have name := creatable.pieces_name
  have parent := creatable.parent
  have hops := creatable.hopWith_par tree home enough
  rw [parentOf_eq tree home enough] at parent
  unfold place at parent
  unfold landing
  rcases split_last path with plain | ⟨dir, char, last, separator, plain, rfl⟩
  · -- A single component is looked for in the current directory.
    have short := fits.2 path suffix_rfl plain
    have split := splitParent_part plain short
    rw [split] at name parent hops ⊢
    rw [if_neg (fun no => no rfl)] at parent
    cases parent
    have notRooted : (path.head?.map isSeparator).getD false = false := by
      cases path with
      | nil => rfl
      | cons first rest => exact plain first mem_cons_self
    have starts (onC : namesC path = false) : startOf state path = state.cwd := by
      unfold startOf
      rw [onC, notRooted]
      rfl
    cases named : namesC path with
    | false =>
      unfold stripC
      rw [named, if_neg Bool.false_ne_true, name, starts named]
      refine iff_of_true ?_ fun _ => ⟨rfl, fun no => ?_⟩
      · rw [foldlM_cons, (hops state.cwd).mpr rfl]
        rfl
      · rw [notRooted] at no
        cases no
    | true =>
      -- What is behind the drive letter is shorter than the name.
      refine iff_of_false (fun landed => ?_) fun all => nomatch (all rfl).1
      unfold stripC at landed
      rw [named, if_pos rfl] at landed
      by_cases bare : path.drop 2 = []
      · rw [bare] at landed
        cases landed
      · rw [pieces_part bare (fun char member => plain char (mem_of_mem_drop member))
          (Nat.lt_of_le_of_lt (drop_sublist 2 path).length_le short), foldlM_cons] at landed
        obtain ⟨pos, hops, done⟩ := bind_eq_some_iff.mp landed
        cases done
        have shorter : (path.drop 2).length = path.length := congrArg List.length (hopWith_new hops).2
        have longer := length_pos_iff.mpr bare
        rw [length_drop] at shorter longer
        omega
  · have split := splitParent_join separator plain (fits.2 last ⟨dir ++ [char], by simp⟩ plain) fits.1
    rw [split] at name parent hops free ⊢
    by_cases top : dir = []
    · -- `split_parent` takes the current directory and `vfs_lookup` the root.
      subst top
      rw [if_neg (fun no => no rfl)] at parent
      cases parent
      have noLetter : namesC (char :: last) = false := by
        cases last with
        | nil => rfl
        | cons next rest =>
          have notC : (char == 0x43 || char == 0x63) = false := by
            rw [Bool.or_eq_false_iff, beq_eq_false_iff_ne, beq_eq_false_iff_ne]
            constructor <;>
            · rintro rfl
              cases separator
          simp [namesC, notC]
      have rooted : ((char :: last).head?.map isSeparator).getD false = true := separator
      have starts : startOf state (char :: last) = root := by
        unfold startOf
        rw [rooted, if_pos (.inr rfl)]
      unfold stripC
      rw [nil_append, noLetter, if_neg Bool.false_ne_true, dropWhile_cons_of_pos separator, name, starts,
        rooted, foldlM_cons]
      constructor
      · intro landed _
        obtain ⟨pos, here, done⟩ := bind_eq_some_iff.mp landed
        cases done
        exact ⟨rfl, fun _ => ((hops root).mp here).symm⟩
      · intro all
        rw [(hops root).mpr ((all rfl).2 rfl).symm]
        rfl
    · refine iff_of_true ?_ fun empty => absurd empty top
      have notD : namesD dir = false := by
        have target := creatable.target
        rwa [onC, parseDrive_onC, (names_join top separator).2] at target
      rw [if_pos top, resolve_onC onC (by rwa [onC, parseDrive_onC])] at parent
      rw [pieces_stripC_join top separator, startOf_join top separator, name, foldlM_append,
        hopsWith_of_hops tree enough (startOf_inside tree home dir _ rfl) free parent, bind_eq_bind,
        bind_some, foldlM_cons, (hops par).mpr rfl]
      rfl

theorem Creatable.findable_iff (creatable : Creatable state fuel path par) (fits : Fits path)
    (target : namesD path = false) : Findable state fuel path ↔ Plain state fuel path := by
  constructor
  · rintro ⟨_, other, parent, landed, free⟩
    rw [creatable.parent, some_inj] at parent
    subst parent
    refine ⟨target, (creatable.landing_iff tree home enough onC fits free).mp landed, fun _ other is => ?_⟩
    rw [creatable.parent, some_inj] at is
    rwa [← is]
  · rintro ⟨_, top, taken⟩
    have free : NoNamesake state fuel par (splitParent path).2 := by
      cases named : namesC (splitParent path).2 with
      | true => exact taken named par creatable.parent
      | false => exact creatable.noNamesake tree home enough named
    exact ⟨target, par, creatable.parent, (creatable.landing_iff tree home enough onC fits free).mpr top, free⟩

end Found

/-- On drive C a directory or an empty file that has been made is found under its path, with every
path that led somewhere still leading there, exactly when `vfs_lookup` takes the pieces of the
path to the new node and the directory has no child of that name. If `split_parent` cuts nothing
off, that is to say that the path is plain. -/
theorem made_nodes_found_iff {first fuel : Nat} {blank start state after : State} {calls : List Call}
    {path : List UInt8} {type : NodeType} (began : vfsInit first blank = some start) (run : Run Step start calls state)
    (onC : state.drive = .c) (enough : maxNodes < fuel) (makes : Makes fuel path state type after) :
    (MadeAt fuel path state type after ↔ Findable state fuel path) ∧
      (Fits path → (Findable state fuel path ↔ Plain state fuel path)) := by
  obtain ⟨kids, tree, home⟩ := (Run.keeps run (vfsInit_consistent began)).1
  by_cases onD : namesD path
  · -- `vfs_lookup` finds nothing on drive D.
    have missing : ¬Findable state fuel path := fun findable => Bool.noConfusion (onD.symm.trans findable.1)
    refine ⟨iff_of_false (fun made => ?_) missing, fun _ => iff_of_false missing fun plain => ?_⟩
    · obtain ⟨n, found, _⟩ := made.found
      rw [vfsLookup_namesD onD] at found
      cases found
    · exact Bool.noConfusion (onD.symm.trans plain.1)
  · rw [Bool.not_eq_true] at onD
    obtain ⟨par, created⟩ := makes.created tree home enough onC onD
    exact ⟨created.madeAt_iff tree home enough onC onD,
      fun fits => created.creatable.findable_iff tree home enough onC fits onD⟩

theorem made_nodes_found_in_home : ∃ start after, vfsInit 129 bareState = some start ∧ start.drive = .c ∧
    vfsMkdir 129 (text "docs") start = some (true, after) ∧ MadeAt 129 (text "docs") start .dir after := by
  have facts : ((vfsInit 129 bareState).bind fun start => (vfsMkdir 129 (text "docs") start).map fun made =>
      (start.drive, made.1)) = some (.c, true) := by decide +kernel
  obtain ⟨start, began, made⟩ := bind_eq_some_iff.mp facts
  obtain ⟨⟨ok, after⟩, made, is⟩ := map_eq_some_iff.mp made
  obtain ⟨onC, rfl⟩ := Prod.mk.inj is
  have fits : Fits (text "docs") :=
    ⟨by decide, fun last suffix _ => Nat.lt_of_le_of_lt suffix.length_le (by decide)⟩
  have plain : Plain start 129 (text "docs") :=
    ⟨by decide, fun _ => ⟨by decide, fun no => absurd no (by decide)⟩, fun no => absurd no (by decide)⟩
  obtain ⟨same, simple⟩ := made_nodes_found_iff began (.done start) onC (by decide) (show Makes _ _ _ .dir _ from made)
  exact ⟨start, after, began, onC, made, same.mpr ((simple fits).mpr plain)⟩

/-- `vfs_mkdir("/foo")` makes the directory in the current one, and `vfs_lookup` looks for
it in the root. -/
theorem rooted_directory_not_found : ∃ start after, vfsInit 129 bareState = some start ∧ start.drive = .c ∧
    vfsMkdir 129 (text "/foo") start = some (true, after) ∧ vfsLookup after 129 (text "/foo") = some none ∧
    ¬MadeAt 129 (text "/foo") start .dir after := by
  have facts : ((vfsInit 129 bareState).bind fun start => (vfsMkdir 129 (text "/foo") start).map fun made =>
      (start.drive, made.1, vfsLookup made.2 129 (text "/foo"))) = some (.c, true, some none) := by decide +kernel
  obtain ⟨start, began, made⟩ := bind_eq_some_iff.mp facts
  obtain ⟨⟨ok, after⟩, made, is⟩ := map_eq_some_iff.mp made
  simp only [Prod.mk.injEq] at is
  obtain ⟨onC, rfl, missing⟩ := is
  refine ⟨start, after, began, onC, made, missing, fun madeAt => ?_⟩
  obtain ⟨n, found, _⟩ := madeAt.found
  rw [missing] at found
  cases found

end GWKernel.Vfs
