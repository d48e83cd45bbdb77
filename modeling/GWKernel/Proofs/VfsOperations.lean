import GWKernel.Proofs.RamfsTree

/-! What the VFS operations do to the tree on drive C. A call that ends up in the FAT driver
leaves it alone. -/

namespace GWKernel.Vfs
open Lib List
open Option (bind_eq_some_iff map_eq_some_iff)

variable {state after : State} {kids : Nat → List Nat} {fuel : Nat} {path : List UInt8}

inductive Removed (ram : Ramfs) (kids : Nat → List Nat) (n : Nat) : Ramfs → Prop where
  | cut {nodes : Nat → Node} {par : Nat} (notRoot : n ≠ root) (parent : (ram.nodes n).parent = some par)
      (bare : (ram.nodes n).type = .dir → (ram.nodes n).child = none) (cut : Cut ram.nodes par n (kids par) nodes) :
      Removed ram kids n { ram with nodes := setNode nodes n { nodes n with type := .cleared, name := [] } }

inductive Grows (ram : Ramfs) : Ramfs → Prop where
  | data {other : Ramfs} (same : SameTree ram other) : Grows ram other
  | added {middle other : Ramfs} {par n : Nat} {name : List UInt8} {type : NodeType} (inside : par < ram.nodeCount)
      (isDir : (ram.nodes par).type = .dir) (kept : type ≠ .cleared) (added : Added ram middle par n name type)
      (same : SameTree middle other) : Grows ram other

variable {ram other : Ramfs} {n : Nat}

structure Refills (ram other : Ramfs) : Prop where
  tree : SameTree ram other
  log : ram.kmallocs <:+ other.kmallocs

theorem Refills.refl (ram : Ramfs) : Refills ram ram := ⟨SameTree.refl ram, suffix_rfl⟩

theorem Refills.trans {first second third : Ramfs} (one : Refills first second) (two : Refills second third) :
    Refills first third :=
  ⟨one.tree.trans two.tree, one.log.trans two.log⟩

/-- The table with at most one more node, which has the name at the end of the path. -/
inductive Creates (state : State) (kids : Nat → List Nat) (path : List UInt8) : Ramfs → Prop where
  | data {other : Ramfs} (same : Refills state.ram other) : Creates state kids path other
  | added {middle other : Ramfs} {par n : Nat} {type : NodeType} (inside : par < state.ram.nodeCount)
      (isDir : (state.ram.nodes par).type = .dir) (kept : type ≠ .cleared)
      (added : Added state.ram middle par n (splitParent path).2 type) (named : (splitParent path).2 ≠ [])
      (missing : follow state.ram kids par (splitParent path).2 = none) (same : Refills middle other) :
      Creates state kids path other

theorem Creates.refl (state : State) : Creates state kids path state.ram := .data (Refills.refl _)

theorem Creates.trans_same {middle : Ramfs} (creates : Creates state kids path middle) (same : Refills middle other) :
    Creates state kids path other := by
  cases creates with
  | data first => exact .data (first.trans same)
  | added inside isDir kept added named missing first =>
    exact .added inside isDir kept added named missing (first.trans same)

theorem Creates.grows (creates : Creates state kids path other) : Grows state.ram other := by
  cases creates with
  | data same => exact .data same.tree
  | added inside isDir kept added _ _ same => exact .added inside isDir kept added same.tree

structure Ages (ram other : Ramfs) : Prop where
  count : ram.nodeCount ≤ other.nodeCount
  cleared : ∀ n < ram.nodeCount, (ram.nodes n).type = .cleared → (other.nodes n).type = .cleared

theorem Ages.refl (ram : Ramfs) : Ages ram ram := ⟨Nat.le_refl _, fun _ _ cleared => cleared⟩

theorem Ages.trans {first second third : Ramfs} (one : Ages first second) (two : Ages second third) :
    Ages first third :=
  ⟨Nat.le_trans one.count two.count, fun n below cleared =>
    two.cleared n (Nat.lt_of_lt_of_le below one.count) (one.cleared n below cleared)⟩

theorem Grows.type (grows : Grows ram other) (below : n < ram.nodeCount) :
    (other.nodes n).type = (ram.nodes n).type := by
  cases grows with
  | data same => exact same.type n
  | added inside isDir kept added same => rw [same.type, (added.old below).2.1]

theorem Grows.keeps (tree : Tree ram kids) (grows : Grows ram other) : (∃ now, Tree other now) ∧ Ages ram other := by
  suffices shape : (∃ now, Tree other now) ∧ ram.nodeCount ≤ other.nodeCount from
    ⟨shape.1, shape.2, fun n below cleared => by rw [grows.type below, cleared]⟩
  cases grows with
  | data same => exact ⟨⟨kids, same.tree tree⟩, Nat.le_of_eq same.count.symm⟩
  | added inside isDir kept added same =>
    refine ⟨⟨_, same.tree (added.tree tree inside isDir kept)⟩, ?_⟩
    rw [same.count, added.count, added.fresh]
    omega

theorem Removed.tree (tree : Tree ram kids) (inside : n < ram.nodeCount) (removed : Removed ram kids n other) :
    ∃ now, Tree other now := by
  cases removed with
  | cut notRoot parent bare cut => exact ⟨_, cut.tree tree inside notRoot parent bare⟩

theorem Removed.count (removed : Removed ram kids n other) : other.nodeCount = ram.nodeCount := by
  cases removed with
  | cut => rfl

theorem Removed.type (removed : Removed ram kids n other) (m : Nat) :
    m = n ∧ (other.nodes m).type = .cleared ∨ (other.nodes m).type = (ram.nodes m).type := by
  cases removed with
  | cut notRoot parent bare cut =>
    by_cases here : m = n
    · exact .inl ⟨here, by simp [setNode, here]⟩
    · exact .inr (by simp [setNode, here, (cut.same m).2.1])

theorem Removed.keeps (tree : Tree ram kids) (inside : n < ram.nodeCount) (removed : Removed ram kids n other) :
    (∃ now, Tree other now) ∧ Ages ram other := by
  refine ⟨removed.tree tree inside, Nat.le_of_eq removed.count.symm, fun m below cleared => ?_⟩
  rcases removed.type m with dropped | same
  · exact dropped.2
  · rw [same, cleared]

structure Fills (n : Nat) (ram other : Ramfs) : Prop where
  same : Refills ram other
  others : ∀ m ≠ n, other.nodes m = ram.nodes m

theorem Fills.refl (n : Nat) (ram : Ramfs) : Fills n ram ram := ⟨Refills.refl ram, fun _ _ => rfl⟩

theorem Fills.trans {first second third : Ramfs} (one : Fills n first second) (two : Fills n second third) :
    Fills n first third :=
  ⟨one.same.trans two.same, fun m differ => (two.others m differ).trans (one.others m differ)⟩

theorem fills_setNode {node : Node} (name : node.name = (ram.nodes n).name) (type : node.type = (ram.nodes n).type)
    (parent : node.parent = (ram.nodes n).parent) (child : node.child = (ram.nodes n).child)
    (sibling : node.sibling = (ram.nodes n).sibling) : Fills n ram { ram with nodes := setNode ram.nodes n node } :=
  ⟨⟨sameTree_setNode name type parent child sibling, suffix_rfl⟩, fun _ differ => if_neg differ⟩

theorem fills_kmalloc (n : Nat) (ram : Ramfs) (size : Nat) : Fills n ram (kmalloc ram size).2 := by
  unfold kmalloc
  split
  · exact Fills.refl n ram
  · exact ⟨⟨⟨rfl, fun _ => rfl, fun _ => rfl, fun _ => rfl, fun _ => rfl, fun _ => rfl⟩, suffix_rfl⟩, fun _ _ => rfl⟩
  · exact ⟨⟨⟨rfl, fun _ => rfl, fun _ => rfl, fun _ => rfl, fun _ => rfl, fun _ => rfl⟩, suffix_cons _ _⟩, fun _ _ => rfl⟩

theorem fills_giveBuffer (ram : Ramfs) (f : Nat) : Fills f ram (giveBuffer ram f).2 := by
  have sized : Fills f ram { ram with nodes := setNode ram.nodes f { ram.nodes f with capacity := 512 } } :=
    fills_setNode rfl rfl rfl rfl rfl
  have asked := sized.trans (fills_kmalloc f _ 512)
  unfold giveBuffer
  dsimp only
  generalize kmalloc { ram with nodes := setNode ram.nodes f { ram.nodes f with capacity := 512 } } 512 = outcome
    at asked ⊢
  obtain ⟨data, middle⟩ := outcome
  have given : Fills f ram { middle with nodes := setNode middle.nodes f { middle.nodes f with data := data } } :=
    asked.trans (fills_setNode rfl rfl rfl rfl rfl)
  cases data with
  | none => exact given
  | some buffer => exact given.trans (fills_setNode rfl rfl rfl rfl rfl)

theorem fills_growBuffer (ram : Ramfs) (n len : Nat) : Fills n ram (growBuffer ram n len).2 := by
  have asked := fills_kmalloc n ram (min (len + 256) maxFileSize)
  unfold growBuffer
  dsimp only
  generalize kmalloc ram (min (len + 256) maxFileSize) = outcome at asked ⊢
  obtain ⟨grant, middle⟩ := outcome
  cases grant with
  | none => exact asked
  | some buffer => exact asked.trans (fills_setNode rfl rfl rfl rfl rfl)

theorem fills_putData (ram : Ramfs) (n : Nat) (bytes : List UInt8) : Fills n ram (putData ram n bytes) := by
  unfold putData
  cases (ram.nodes n).data with
  | none =>
    have low : Fills n ram { ram with low := ram.low.copy 0 bytes } :=
      ⟨⟨⟨rfl, fun _ => rfl, fun _ => rfl, fun _ => rfl, fun _ => rfl, fun _ => rfl⟩, suffix_rfl⟩, fun _ _ => rfl⟩
    exact low.trans (fills_setNode rfl rfl rfl rfl rfl)
  | some buffer =>
    have put : Fills n ram { ram with
        nodes := setNode ram.nodes n { ram.nodes n with data := some (buffer.copy 0 bytes) } } :=
      fills_setNode rfl rfl rfl rfl rfl
    exact put.trans (fills_setNode rfl rfl rfl rfl rfl)

theorem fills_store (ram : Ramfs) (n : Nat) (buf : List UInt8) : Fills n ram (store ram n buf).2 := by
  unfold store
  split
  next => exact Fills.refl n ram
  next =>
    dsimp only
    have room : Fills n ram (if (ram.nodes n).capacity < (buf.take maxFileSize).length
        then growBuffer ram n (buf.take maxFileSize).length else (true, ram)).2 := by
      split
      next => exact fills_growBuffer ram n _
      next => exact Fills.refl n ram
    generalize (if (ram.nodes n).capacity < (buf.take maxFileSize).length
      then growBuffer ram n (buf.take maxFileSize).length else (true, ram)) = outcome at room ⊢
    obtain ⟨ok, middle⟩ := outcome
    cases ok with
    | false => exact room
    | true => exact room.trans (fills_putData middle n _)

theorem parseDrive_namesC (onC : namesC path) (drive : Drive) : (parseDrive drive path).1 = .c := by
  simp [parseDrive, onC]

theorem namesC_of_namesD (onD : namesD path) : namesC path = false := by
  unfold namesD at onD
  unfold namesC
  split
  next first second rest =>
    simp only [Bool.and_eq_true, Bool.or_eq_true, beq_iff_eq] at onD
    rcases onD with ⟨rfl | rfl, _⟩ <;> simp
  next => rfl

theorem parseDrive_namesD (onD : namesD path) (drive : Drive) :
    parseDrive drive path = (.d, (path.drop 2).dropWhile Fat.isSeparator) := by
  simp [parseDrive, onD, namesC_of_namesD onD]

theorem parseDrive_onC (path : List UInt8) : (parseDrive .c path).1 = .c ↔ namesD path = false := by
  by_cases onD : namesD path
  · simp [parseDrive, namesC_of_namesD onD, onD]
  · by_cases onC : namesC path <;> simp [parseDrive, onC, onD]

theorem not_nil_of_namesC (onC : namesC path) : path ≠ [] := by
  rintro rfl
  cases onC

theorem not_nil_of_namesD (onD : namesD path) : path ≠ [] := by
  rintro rfl
  cases onD

theorem vfsLookup_namesC (onC : namesC path) (state : State) :
    vfsLookup state fuel path = lookupRel state.ram.nodes fuel root path := by
  simp [vfsLookup, not_nil_of_namesC onC, parseDrive_namesC onC, onC]

theorem vfsLookup_namesD (onD : namesD path) (state : State) : vfsLookup state fuel path = some none := by
  simp [vfsLookup, not_nil_of_namesD onD, parseDrive_namesD onD]

def resolve (state : State) (kids : Nat → List Nat) (path : List UInt8) : Option Nat :=
  if path = [] then some state.cwd
  else if (parseDrive state.drive path).1 = .d then none
  else if namesC path then follow state.ram kids root path
  else if (path.head?.map Fat.isSeparator).getD false then follow state.ram kids root path
  else if state.drive = .d then none
  else follow state.ram kids state.cwd path

section Lookup

variable (tree : Tree state.ram kids) (home : state.cwd < state.ram.nodeCount)
include tree home

theorem vfsLookup_eq (path : List UInt8) (fuel : Nat) :
    vfsLookup state fuel path = none ∧ fuel ≤ maxNodes ∨
      vfsLookup state fuel path = some (resolve state kids path) := by
  unfold vfsLookup resolve
  repeat' split
  · exact .inr rfl
  · exact .inr rfl
  · exact lookupRel_eq tree tree.rooted.1 path fuel
  · exact lookupRel_eq tree tree.rooted.1 path fuel
  · exact .inr rfl
  · exact lookupRel_eq tree home path fuel

theorem vfsLookup_resolves {found : Option Nat} (ran : vfsLookup state fuel path = some found) :
    found = resolve state kids path := by
  rcases vfsLookup_eq tree home path fuel with ⟨none, _⟩ | found
  · rw [none] at ran
    cases ran
  · rw [found] at ran
    exact (Option.some.inj ran).symm

theorem resolve_inside {n : Nat} (found : resolve state kids path = some n) : n < state.ram.nodeCount := by
  unfold resolve at found
  repeat' split at found
  · cases found
    exact home
  · cases found
  · exact follow_inside tree tree.rooted.1 found
  · exact follow_inside tree tree.rooted.1 found
  · cases found
  · exact follow_inside tree home found

def place (state : State) (kids : Nat → List Nat) (path : List UInt8) : Option Nat :=
  if (splitParent path).1 ≠ [] then resolve state kids (splitParent path).1 else some state.cwd

theorem place_inside {par : Nat} (found : place state kids path = some par) : par < state.ram.nodeCount := by
  unfold place at found
  split at found
  · exact resolve_inside tree home found
  · cases found
    exact home

theorem addNode_cases {type : NodeType} {made : Option (Nat × Ramfs)} (ran : addNode state fuel path type = some made) :
    made = none ∨ (splitParent path).2 ≠ [] ∧
      allocIn state fuel (place state kids path) (splitParent path).2 type = some made := by
  unfold addNode at ran
  unfold place
  dsimp only at ran
  split at ran
  next =>
    cases ran
    exact .inl rfl
  next named =>
    right
    refine ⟨named, ?_⟩
    split at ran
    next below =>
      obtain ⟨par, looked, ran⟩ := bind_eq_some_iff.mp ran
      rw [if_pos below, ← vfsLookup_resolves tree home looked, ran]
    next here => rw [if_neg here, ran]

theorem addNode_spec {type : NodeType} {n : Nat} {ram : Ramfs}
    (ran : addNode state fuel path type = some (some (n, ram))) :
    ∃ par, par < state.ram.nodeCount ∧ (state.ram.nodes par).type = .dir ∧
      Added state.ram ram par n (splitParent path).2 type ∧ (splitParent path).2 ≠ [] ∧
      place state kids path = some par ∧ follow state.ram kids par (splitParent path).2 = none := by
  rcases addNode_cases tree home ran with none | ⟨named, ran⟩
  · cases none
  unfold allocIn at ran
  split at ran
  next => cases ran
  next found par placed =>
    have inside := place_inside tree home placed
    split at ran
    next => cases ran
    next isDir =>
      obtain ⟨existing, searched, ran⟩ := bind_eq_some_iff.mp ran
      cases existing with
      | some _ => cases ran
      | none =>
        refine ⟨par, inside, Decidable.not_not.mp isDir, allocNode_added inside (Option.some.inj ran), named, placed, ?_⟩
        rcases lookupRel_eq tree inside (splitParent path).2 fuel with ⟨none, _⟩ | found
        · rw [none] at searched
          cases searched
        · rw [found] at searched
          exact Option.some.inj searched

end Lookup

section Operations

variable (tree : Tree state.ram kids) (home : state.cwd < state.ram.nodeCount)
include tree home

omit tree home in
theorem onFat_keeps {α : Type} {code : Fat.Io α} {result : α} (ran : onFat state code = some (result, after)) :
    after.ram = state.ram ∧ after.cwd = state.cwd ∧ after.drive = state.drive ∧ after.vol = state.vol ∧
      code state.medium = some (result, after.medium) := by
  obtain ⟨⟨value, medium⟩, called, same⟩ := map_eq_some_iff.mp ran
  cases same
  exact ⟨rfl, rfl, rfl, rfl, called⟩

variable {ok : Bool}

omit tree home in
theorem onFatChdir_keeps (ran : onFatChdir state fuel path = some (ok, after)) :
    after.ram = state.ram ∧ after.cwd = state.cwd ∧ after.drive = state.drive ∧
      Fat.fatChdir state.vol fuel path state.medium = some ((ok, after.vol), after.medium) := by
  obtain ⟨⟨⟨value, vol⟩, medium⟩, called, same⟩ := map_eq_some_iff.mp ran
  cases same
  exact ⟨rfl, rfl, rfl, called⟩

omit tree home in
theorem chdirD_keeps (ran : chdirD fuel path state = some (ok, after)) :
    after.ram = state.ram ∧ after.cwd = state.cwd := by
  obtain ⟨⟨entered, middle⟩, first, ran⟩ := bind_eq_some_iff.mp ran
  obtain ⟨same, cwd, _⟩ := onFatChdir_keeps first
  cases entered with
  | true =>
    cases ran
    exact ⟨same, cwd⟩
  | false =>
    obtain ⟨⟨entered, last⟩, second, ran⟩ := bind_eq_some_iff.mp ran
    obtain ⟨again, kept, _⟩ := onFatChdir_keeps second
    cases entered with
    | true | false =>
      cases ran
      exact ⟨again.trans same, kept.trans cwd⟩

theorem vfsMkdir_creates (ran : vfsMkdir fuel path state = some (ok, after)) :
    Creates state kids path after.ram ∧ after.cwd = state.cwd := by
  unfold vfsMkdir at ran
  dsimp only at ran
  split at ran
  next =>
    obtain ⟨same, cwd, _⟩ := onFat_keeps ran
    exact ⟨same ▸ Creates.refl _, cwd⟩
  next =>
    obtain ⟨outcome, made, ran⟩ := bind_eq_some_iff.mp ran
    cases outcome with
    | none =>
      cases ran
      exact ⟨Creates.refl _, rfl⟩
    | some made_ =>
      obtain ⟨n, ram⟩ := made_
      cases ran
      obtain ⟨par, inside, isDir, added, named, _, missing⟩ := addNode_spec tree home made
      exact ⟨.added inside isDir NodeType.noConfusion added named missing (Refills.refl _), rfl⟩

theorem vfsCreateFile_creates (ran : vfsCreateFile fuel path state = some (ok, after)) :
    Creates state kids path after.ram ∧ after.cwd = state.cwd := by
  unfold vfsCreateFile at ran
  dsimp only at ran
  split at ran
  next =>
    obtain ⟨⟨wrote, middle⟩, called, ran⟩ := bind_eq_some_iff.mp ran
    cases ran
    obtain ⟨same, cwd, _⟩ := onFat_keeps called
    exact ⟨same ▸ Creates.refl _, cwd⟩
  next =>
    obtain ⟨outcome, made, ran⟩ := bind_eq_some_iff.mp ran
    cases outcome with
    | none =>
      cases ran
      exact ⟨Creates.refl _, rfl⟩
    | some made_ =>
      obtain ⟨n, ram⟩ := made_
      cases ran
      obtain ⟨par, inside, isDir, added, named, _, missing⟩ := addNode_spec tree home made
      exact ⟨.added inside isDir NodeType.noConfusion added named missing (fills_giveBuffer ram n).same, rfl⟩

omit tree home in
theorem storeAt_keeps (state : State) (found : Option Nat) (buf : List UInt8) :
    Refills state.ram (storeAt state found buf).2.ram ∧ (storeAt state found buf).2.cwd = state.cwd := by
  unfold storeAt
  cases found with
  | none => exact ⟨Refills.refl _, rfl⟩
  | some n => exact ⟨(fills_store state.ram n buf).same, rfl⟩

theorem vfsWrite_creates {buf : List UInt8} {wrote : Option Nat}
    (ran : vfsWrite fuel path buf state = some (wrote, after)) :
    Creates state kids path after.ram ∧ after.cwd = state.cwd := by
  unfold vfsWrite at ran
  dsimp only at ran
  split at ran
  next =>
    obtain ⟨same, cwd, _⟩ := onFat_keeps ran
    exact ⟨same ▸ Creates.refl _, cwd⟩
  split at ran
  next =>
    obtain ⟨same, cwd, _⟩ := onFat_keeps ran
    exact ⟨same ▸ Creates.refl _, cwd⟩
  next =>
    obtain ⟨found, looked, ran⟩ := bind_eq_some_iff.mp ran
    cases found with
    | some n =>
      obtain ⟨same, cwd⟩ := storeAt_keeps state (some n) buf
      rw [Option.some.inj ran] at same cwd
      exact ⟨.data same, cwd⟩
    | none =>
      obtain ⟨⟨made, middle⟩, created, ran⟩ := bind_eq_some_iff.mp ran
      obtain ⟨change, cwd⟩ := vfsCreateFile_creates tree home created
      cases made with
      | false =>
        cases ran
        exact ⟨change, cwd⟩
      | true =>
        obtain ⟨found, _, ran⟩ := bind_eq_some_iff.mp ran
        obtain ⟨same, kept⟩ := storeAt_keeps middle found buf
        rw [Option.some.inj ran] at same kept
        exact ⟨change.trans_same same, kept.trans cwd⟩

omit tree home in
theorem vfsRead_keeps {maxlen : Nat} {bytes : Option (List UInt8)}
    (ran : vfsRead fuel path maxlen state = some (bytes, after)) :
    after.ram = state.ram ∧ after.cwd = state.cwd ∧ after.drive = state.drive := by
  unfold vfsRead at ran
  dsimp only at ran
  split at ran
  next =>
    obtain ⟨same, cwd, drive, _⟩ := onFat_keeps ran
    exact ⟨same, cwd, drive⟩
  split at ran
  next =>
    obtain ⟨same, cwd, drive, _⟩ := onFat_keeps ran
    exact ⟨same, cwd, drive⟩
  next =>
    obtain ⟨found, looked, ran⟩ := bind_eq_some_iff.mp ran
    cases found with
    | none =>
      cases ran
      exact ⟨rfl, rfl, rfl⟩
    | some n =>
      dsimp only at ran
      split at ran <;> cases ran <;> exact ⟨rfl, rfl, rfl⟩

theorem vfsUnlink_cases (ran : vfsUnlink fuel path state = some (ok, after)) :
    after.cwd = state.cwd ∧ (after.ram = state.ram ∨
      ∃ n, (parseDrive state.drive path).1 = .c ∧ resolve state kids path = some n ∧ n < state.ram.nodeCount ∧
        Removed state.ram kids n after.ram) := by
  unfold vfsUnlink at ran
  dsimp only at ran
  split at ran
  next =>
    obtain ⟨same, cwd, _⟩ := onFat_keeps ran
    exact ⟨cwd, .inl same⟩
  next notD =>
    have onC : (parseDrive state.drive path).1 = .c := by
      cases drive : (parseDrive state.drive path).1 with
      | c => rfl
      | d => exact absurd drive notD
    split at ran
    next =>
      obtain ⟨same, cwd, _⟩ := onFat_keeps ran
      exact ⟨cwd, .inl same⟩
    next =>
      obtain ⟨found, looked, ran⟩ := bind_eq_some_iff.mp ran
      cases found with
      | none =>
        cases ran
        exact ⟨rfl, .inl rfl⟩
      | some n =>
        have leads := (vfsLookup_resolves tree home looked).symm
        have inside := resolve_inside tree home leads
        dsimp only at ran
        split at ran
        next =>
          cases ran
          exact ⟨rfl, .inl rfl⟩
        next removable =>
          push Not at removable
          split at ran
          next =>
            cases ran
            exact ⟨rfl, .inl rfl⟩
          next par parent =>
            obtain ⟨nodes, cut, ran⟩ := bind_eq_some_iff.mp ran
            cases ran
            have list := tree.lists par (Nat.lt_trans (tree.parent_lt inside parent) inside)
            exact ⟨rfl, .inr ⟨n, onC, leads, inside, .cut removable.1 parent removable.2 (unlinkChild_cut list cut)⟩⟩

omit tree home in
theorem enter_keeps (state : State) (found : Option Nat) :
    (enter state found).2.ram = state.ram ∧ ((enter state found).2.cwd = state.cwd ∨
      ∃ n, found = some n ∧ (enter state found).2.cwd = n ∧ (state.ram.nodes n).type = .dir) := by
  unfold enter
  cases found with
  | none => exact ⟨rfl, .inl rfl⟩
  | some n =>
    dsimp only
    split
    next => exact ⟨rfl, .inl rfl⟩
    next isDir => exact ⟨rfl, .inr ⟨n, rfl, rfl, Decidable.not_not.mp isDir⟩⟩

def Moved (state after : State) : Prop :=
  after.cwd = state.cwd ∨ after.cwd < state.ram.nodeCount ∧ (state.ram.nodes after.cwd).type = .dir

omit tree home in
theorem enter_moves {found : Option Nat} (inside : ∀ n, found = some n → n < state.ram.nodeCount) :
    (enter state found).2.ram = state.ram ∧ Moved state (enter state found).2 := by
  obtain ⟨same, kept | ⟨n, is, cwd, isDir⟩⟩ := enter_keeps state found
  · exact ⟨same, .inl kept⟩
  · exact ⟨same, .inr (cwd ▸ ⟨inside n is, isDir⟩)⟩

theorem vfsChdir_moves (ran : vfsChdir fuel path state = some (ok, after)) :
    after.ram = state.ram ∧ Moved state after := by
  unfold vfsChdir at ran
  dsimp only at ran
  split at ran
  next =>
    obtain ⟨same, cwd⟩ := chdirD_keeps ran
    exact ⟨same, .inl cwd⟩
  split at ran
  next =>
    obtain ⟨found, looked, ran⟩ := bind_eq_some_iff.mp ran
    have moved := @enter_moves state found fun n is => ?_
    · rw [Option.some.inj ran] at moved
      exact moved
    · rcases lookupRel_eq tree tree.rooted.1 path fuel with ⟨none, _⟩ | leads
      · rw [none] at looked
        cases looked
      · rw [leads] at looked
        exact follow_inside tree tree.rooted.1 ((Option.some.inj looked).trans is)
  split at ran
  next =>
    obtain ⟨same, cwd, _⟩ := onFatChdir_keeps ran
    exact ⟨same, .inl cwd⟩
  next =>
    obtain ⟨found, looked, ran⟩ := bind_eq_some_iff.mp ran
    have moved := @enter_moves state found fun n is =>
      resolve_inside tree home ((vfsLookup_resolves tree home looked).symm.trans is)
    rw [Option.some.inj ran] at moved
    exact moved

end Operations

inductive Call where
  | mkdir (path : List UInt8)
  | createFile (path : List UInt8)
  | write (path buf : List UInt8)
  | read (path : List UInt8) (maxlen : Nat)
  | unlink (path : List UInt8)
  | chdir (path : List UInt8)

def Call.run (fuel : Nat) (state : State) : Call → Option State
  | mkdir path => (vfsMkdir fuel path state).map Prod.snd
  | createFile path => (vfsCreateFile fuel path state).map Prod.snd
  | write path buf => (vfsWrite fuel path buf state).map Prod.snd
  | read path maxlen => (vfsRead fuel path maxlen state).map Prod.snd
  | unlink path => (vfsUnlink fuel path state).map Prod.snd
  | chdir path => (vfsChdir fuel path state).map Prod.snd

def Step (state : State) (call : Call) (after : State) : Prop := ∃ fuel, call.run fuel state = some after

inductive RamStep (state : State) (kids : Nat → List Nat) (call : Call) (after : State) : Prop where
  | creates {path : List UInt8} (is : call = .mkdir path ∨ call = .createFile path ∨ ∃ buf, call = .write path buf)
      (creates : Creates state kids path after.ram) (cwd : after.cwd = state.cwd)
  | moves (same : after.ram = state.ram) (moved : Moved state after)
  | removes {path : List UInt8} {n : Nat} (is : call = .unlink path) (onC : (parseDrive state.drive path).1 = .c)
      (leads : resolve state kids path = some n) (inside : n < state.ram.nodeCount) (removed : Removed state.ram kids n after.ram) (cwd : after.cwd = state.cwd)

theorem Step.ramStep {call : Call} (tree : Tree state.ram kids) (home : state.cwd < state.ram.nodeCount)
    (step : Step state call after) : RamStep state kids call after := by
  obtain ⟨fuel, ran⟩ := step
  cases call with
  | mkdir path =>
    obtain ⟨⟨ok, final⟩, returned, rfl⟩ := map_eq_some_iff.mp ran
    obtain ⟨creates, cwd⟩ := vfsMkdir_creates tree home returned
    exact .creates (.inl rfl) creates cwd
  | createFile path =>
    obtain ⟨⟨ok, final⟩, returned, rfl⟩ := map_eq_some_iff.mp ran
    obtain ⟨creates, cwd⟩ := vfsCreateFile_creates tree home returned
    exact .creates (.inr (.inl rfl)) creates cwd
  | write path buf =>
    obtain ⟨⟨wrote, final⟩, returned, rfl⟩ := map_eq_some_iff.mp ran
    obtain ⟨creates, cwd⟩ := vfsWrite_creates tree home returned
    exact .creates (.inr (.inr ⟨_, rfl⟩)) creates cwd
  | read path maxlen =>
    obtain ⟨⟨bytes, final⟩, returned, rfl⟩ := map_eq_some_iff.mp ran
    obtain ⟨same, cwd, _⟩ := vfsRead_keeps returned
    exact .moves same (.inl cwd)
  | unlink path =>
    obtain ⟨⟨ok, final⟩, returned, rfl⟩ := map_eq_some_iff.mp ran
    obtain ⟨cwd, same | ⟨n, onC, leads, inside, removed⟩⟩ := vfsUnlink_cases tree home returned
    · exact .moves same (.inl cwd)
    · exact .removes rfl onC leads inside removed cwd
  | chdir path =>
    obtain ⟨⟨ok, final⟩, returned, rfl⟩ := map_eq_some_iff.mp ran
    obtain ⟨same, moved⟩ := vfsChdir_moves tree home returned
    exact .moves same moved

/-- The nodes form a tree, and the current directory is a node of the table, perhaps a removed
one. -/
def Consistent (state : State) : Prop :=
  ∃ kids, Tree state.ram kids ∧ state.cwd < state.ram.nodeCount

theorem Step.keeps {call : Call} (consistent : Consistent state) (step : Step state call after) :
    Consistent after ∧ Ages state.ram after.ram := by
  obtain ⟨kids, tree, home⟩ := consistent
  suffices kept : (∃ now, Tree after.ram now) ∧ Ages state.ram after.ram ∧ after.cwd < after.ram.nodeCount by
    obtain ⟨⟨now, shape⟩, ages, inside⟩ := kept
    exact ⟨⟨now, shape, inside⟩, ages⟩
  cases step.ramStep tree home with
  | creates _ creates cwd =>
    obtain ⟨now, ages⟩ := creates.grows.keeps tree
    exact ⟨now, ages, cwd ▸ Nat.lt_of_lt_of_le home ages.count⟩
  | moves same moved =>
    rw [same]
    refine ⟨⟨kids, tree⟩, Ages.refl _, ?_⟩
    rcases moved with cwd | moved
    · exact cwd ▸ home
    · exact moved.1
  | removes _ _ _ inside removed cwd =>
    obtain ⟨now, ages⟩ := removed.keeps tree inside
    exact ⟨now, ages, cwd ▸ Nat.lt_of_lt_of_le home ages.count⟩

theorem Run.keeps {calls : List Call} (run : Run Step state calls after) (consistent : Consistent state) :
    Consistent after ∧ Ages state.ram after.ram := by
  induction run with
  | done state => exact ⟨consistent, Ages.refl _⟩
  | next step _ ih =>
    obtain ⟨middle, before⟩ := step.keeps consistent
    obtain ⟨final, rest⟩ := ih middle
    exact ⟨final, before.trans rest⟩

theorem tree_root (ram : Ramfs) (single : ram.nodeCount = 1)
    (is : ram.nodes root = { Node.zero with type := .dir }) : Tree ram fun _ => [] := by
  have only {n : Nat} (inside : n < ram.nodeCount) : n = root := by
    rw [single] at inside
    exact Nat.lt_one_iff.mp inside
  refine ⟨?_, ⟨?_, ?_, ?_⟩, fun n inside => ?_, fun n inside c => ?_, fun _ _ some => ?_, fun n inside other => ?_,
    fun n inside e next => ?_⟩
  · rw [single]
    decide
  · rw [single]
    exact Nat.one_pos
  · rw [is]
  · rw [is]
    rfl
  · rw [only inside, is]
    exact .done
  · constructor
    · intro member
      cases member
    · rintro ⟨below, parent, _⟩
      rw [only below, is] at parent
      cases parent
  · exact absurd rfl some
  · exact absurd (only inside) other
  · rw [only inside, is] at next
    cases next

def rooted (state : State) : State :=
  let ram := { state.ram with nodes := fun _ => Node.zero, nodeCount := 0 }
  { state with ram := ((allocNode ram [] .dir none).map Prod.snd).getD ram, cwd := root, drive := .c }

def initCalls : List Call :=
  initialDirs.map .mkdir ++ [.chdir (text "Users/root"), .write (text "readme.txt") (readme.take 44)]

theorem vfsInit_eq (fuel : Nat) (state : State) :
    vfsInit fuel state = initCalls.foldlM (fun state call => call.run fuel state) (rooted state) := by
  unfold vfsInit initCalls rooted
  rw [foldlM_append, foldlM_map]
  dsimp only
  refine bind_congr fun made => ?_
  rw [foldlM_cons, Call.run]
  cases vfsChdir fuel (text "Users/root") made with
  | none => rfl
  | some entered =>
    dsimp only [Option.map_some, Option.bind_eq_bind, Option.bind_some]
    rw [foldlM_cons, Call.run]
    cases vfsWrite fuel (text "readme.txt") (readme.take 44) entered.2 with
    | none | some => rfl

theorem vfsInit_induction {invariant : State → Prop}
    (base : ∀ state, Tree state.ram (fun _ => []) → state.ram.nodeCount = 1 → state.cwd = root → invariant state)
    (kept : ∀ state call after, (∀ path, call ≠ .unlink path) → invariant state → Step state call after →
      invariant after) (ran : vfsInit fuel state = some after) : invariant after := by
  have others : ∀ call ∈ initCalls, ∀ path, call ≠ .unlink path := by
    rintro call member path rfl
    unfold initCalls at member
    simp at member
  have keeps : ∀ {calls : List Call} {first last : State}, (∀ call ∈ calls, ∀ path, call ≠ .unlink path) →
      invariant first → calls.foldlM (fun state call => call.run fuel state) first = some last → invariant last := by
    intro calls
    induction calls with
    | nil =>
      intro first last _ holds ran
      cases ran
      exact holds
    | cons call rest ih =>
      intro first last others holds ran
      obtain ⟨middle, made, ran⟩ := bind_eq_some_iff.mp ran
      obtain ⟨here, others⟩ := forall_mem_cons.mp others
      exact ih others (kept first call middle here holds ⟨fuel, made⟩) ran
  rw [vfsInit_eq] at ran
  exact keeps others (base _ (tree_root _ rfl rfl) rfl rfl) ran

theorem vfsInit_consistent (ran : vfsInit fuel state = some after) : Consistent after :=
  vfsInit_induction (fun _ tree one cwd => ⟨_, tree, by rw [one, cwd]; exact Nat.one_pos⟩)
    (fun _ _ _ _ consistent step => (step.keeps consistent).1) ran

end GWKernel.Vfs
