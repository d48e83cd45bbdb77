import GWKernel.Proofs.RamfsSafety
import GWKernel.Proofs.RamfsPaths

/-! What a VFS call that fails leaves behind on drive C: a new node whose buffer was refused, or
that `vfs_lookup` does not find. -/

namespace GWKernel.Vfs
open Lib List Option

variable {fuel : Nat} {state after : State} {path buf : List UInt8} {kids : Nat → List Nat}

def contents (ram : Ramfs) (n : Nat) : List UInt8 := (ram.buffer n).slice 0 (ram.nodes n).size

/-- The same linked nodes with the same names, types and contents. -/
structure Untouched (before after : State) : Prop where
  cwd : after.cwd = before.cwd
  drive : after.drive = before.drive
  linked : ∀ n, Linked after.ram.nodes n ↔ Linked before.ram.nodes n
  same : ∀ n, Linked before.ram.nodes n → (after.ram.nodes n).name = (before.ram.nodes n).name ∧
    (after.ram.nodes n).type = (before.ram.nodes n).type ∧ (after.ram.nodes n).parent = (before.ram.nodes n).parent ∧
    contents after.ram n = contents before.ram n

theorem Untouched.of_ram (cwd : after.cwd = state.cwd) (drive : after.drive = state.drive)
    (nodes : after.ram.nodes = state.ram.nodes) (low : after.ram.low = state.ram.low) : Untouched state after := by
  refine ⟨cwd, drive, fun n => by rw [nodes], fun n _ => ?_⟩
  unfold contents Ramfs.buffer
  rw [nodes, low]
  exact ⟨rfl, rfl, rfl, rfl⟩

theorem Untouched.refl (state : State) : Untouched state state := .of_ram rfl rfl rfl rfl

theorem Untouched.not_added {par n : Nat} {name : List UInt8} {type : NodeType} {middle : Ramfs}
    (tree : Tree state.ram kids) (inside : par < state.ram.nodeCount) (isDir : (state.ram.nodes par).type = .dir)
    (kept : type ≠ .cleared) (added : Added state.ram middle par n name type) (same : SameTree middle after.ram) :
    ¬Untouched state after := by
  intro untouched
  have grown := same.tree (added.tree tree inside isDir kept)
  have fresh := added.fresh
  have live : (after.ram.nodes n).type ≠ .cleared := by
    rw [same.type, added.node]
    exact kept
  have counted : n < after.ram.nodeCount := by
    rw [same.count, added.count]
    exact Nat.lt_succ_self n
  have before := (untouched.linked n).mp (grown.linked_iff.mpr ⟨counted, live⟩)
  have below := (tree.linked_iff.mp before).1
  omega

theorem untouched_of_onFat {α : Type} {code : Fat.Io α} {result : α} (ran : onFat state code = some (result, after)) :
    Untouched state after := by
  obtain ⟨same, cwd, drive, _⟩ := onFat_keeps ran
  exact .of_ram cwd drive (by rw [same]) (by rw [same])

theorem vfsMkdir_failed (ran : vfsMkdir fuel path state = some (false, after)) : Untouched state after := by
  unfold vfsMkdir at ran
  dsimp only at ran
  split at ran
  next => exact untouched_of_onFat ran
  next =>
    obtain ⟨outcome, _, ran⟩ := bind_eq_some_iff.mp ran
    cases outcome with
    | none =>
      cases ran
      exact .refl state
    | some => cases ran

theorem vfsUnlink_failed (ran : vfsUnlink fuel path state = some (false, after)) : Untouched state after := by
  unfold vfsUnlink at ran
  dsimp only at ran
  split at ran
  next => exact untouched_of_onFat ran
  split at ran
  next => exact untouched_of_onFat ran
  next =>
    obtain ⟨found, _, ran⟩ := bind_eq_some_iff.mp ran
    cases found with
    | none =>
      cases ran
      exact .refl state
    | some n =>
      dsimp only at ran
      split at ran
      next =>
        cases ran
        exact .refl state
      next =>
        split at ran
        next =>
          cases ran
          exact .refl state
        next =>
          obtain ⟨_, _, ran⟩ := bind_eq_some_iff.mp ran
          cases ran

theorem enter_failed {found : Option Nat} (ran : enter state found = (false, after)) : after = state := by
  unfold enter at ran
  cases found with
  | none =>
    cases ran
    rfl
  | some n =>
    dsimp only at ran
    split at ran
    next =>
      cases ran
      rfl
    next => cases ran

theorem vfsChdir_failed (ran : vfsChdir fuel path state = some (false, after)) : Untouched state after := by
  unfold vfsChdir at ran
  dsimp only at ran
  split at ran
  next =>
    obtain ⟨⟨entered, middle⟩, first, ran⟩ := bind_eq_some_iff.mp ran
    cases entered with
    | true => cases ran
    | false =>
      obtain ⟨⟨again, last⟩, second, ran⟩ := bind_eq_some_iff.mp ran
      cases again with
      | true => cases ran
      | false =>
        cases ran
        obtain ⟨same, cwd, drive, _⟩ := onFatChdir_keeps first
        obtain ⟨still, stays, kept, _⟩ := onFatChdir_keeps second
        exact .of_ram (stays.trans cwd) (kept.trans drive) (by rw [still, same]) (by rw [still, same])
  split at ran
  next =>
    obtain ⟨found, _, ran⟩ := bind_eq_some_iff.mp ran
    rw [enter_failed (Option.some.inj ran)]
    exact .refl state
  split at ran
  next =>
    obtain ⟨same, cwd, drive, _⟩ := onFatChdir_keeps ran
    exact .of_ram cwd drive (by rw [same]) (by rw [same])
  next =>
    obtain ⟨found, _, ran⟩ := bind_eq_some_iff.mp ran
    rw [enter_failed (Option.some.inj ran)]
    exact .refl state

/-- The call of `kmalloc` with this number from now on does not return NULL. -/
def Granted (ram : Ramfs) (index : Nat) : Prop := ∃ buffer, ram.grants[index]? = some (some buffer)

instance (ram : Ramfs) (index : Nat) : Decidable (Granted ram index) :=
  decidable_of_iff ((ram.grants[index]?.join).isSome = true) (by
    unfold Granted
    rcases ram.grants[index]? with _ | _ | buffer <;> simp)

theorem kmalloc_cases (ram : Ramfs) (size : Nat) :
    (∃ buffer, (kmalloc ram size).1 = some buffer ∧ Granted ram 0) ∨ (kmalloc ram size).1 = none ∧ ¬Granted ram 0 := by
  unfold kmalloc Granted
  rcases ram.grants with _ | ⟨_ | buffer, rest⟩ <;> simp

theorem kmalloc_low (ram : Ramfs) (size : Nat) : (kmalloc ram size).2.low = ram.low := by
  unfold kmalloc
  split <;> rfl

theorem kmalloc_granted (ram : Ramfs) (size index : Nat) :
    Granted (kmalloc ram size).2 index ↔ Granted ram (index + 1) := by
  unfold kmalloc Granted
  cases grants : ram.grants with
  | nil => simp [grants]
  | cons grant rest => cases grant <;> simp

theorem giveBuffer_spec (ram : Ramfs) (f : Nat) :
    ((giveBuffer ram f).1 = true ↔ Granted ram 0) ∧
      (∀ index, Granted (giveBuffer ram f).2 index ↔ Granted ram (index + 1)) ∧
      ((giveBuffer ram f).2.nodes f).capacity = 512 := by
  have outcomes := kmalloc_cases { ram with nodes := setNode ram.nodes f { ram.nodes f with capacity := 512 } } 512
  have grants := kmalloc_granted { ram with nodes := setNode ram.nodes f { ram.nodes f with capacity := 512 } } 512
  have nodes := kmalloc_nodes { ram with nodes := setNode ram.nodes f { ram.nodes f with capacity := 512 } } 512
  unfold giveBuffer
  dsimp only
  generalize kmalloc { ram with nodes := setNode ram.nodes f { ram.nodes f with capacity := 512 } } 512 = outcome
    at outcomes grants nodes ⊢
  obtain ⟨data, middle⟩ := outcome
  dsimp only at nodes
  have capacity : (middle.nodes f).capacity = 512 := by
    rw [nodes]
    simp [setNode]
  rcases outcomes with ⟨buffer, rfl, yes⟩ | ⟨rfl, no⟩
  · exact ⟨iff_of_true rfl yes, grants, by simp [setNode, capacity]⟩
  · exact ⟨iff_of_false Bool.noConfusion no, grants, by simp [setNode, capacity]⟩

def storedLength (buf : List UInt8) : Nat := min maxFileSize buf.length

theorem growBuffer_spec (ram : Ramfs) (n len : Nat) : ((growBuffer ram n len).1 = true ↔ Granted ram 0) ∧
    ((growBuffer ram n len).1 = false →
      (growBuffer ram n len).2.nodes = ram.nodes ∧ (growBuffer ram n len).2.low = ram.low) := by
  have outcomes := kmalloc_cases ram (min (len + 256) maxFileSize)
  have nodes := kmalloc_nodes ram (min (len + 256) maxFileSize)
  have low := kmalloc_low ram (min (len + 256) maxFileSize)
  unfold growBuffer
  dsimp only
  generalize kmalloc ram (min (len + 256) maxFileSize) = outcome at outcomes nodes low ⊢
  obtain ⟨grant, middle⟩ := outcome
  rcases outcomes with ⟨buffer, rfl, yes⟩ | ⟨rfl, no⟩
  · exact ⟨iff_of_true rfl yes, Bool.noConfusion⟩
  · exact ⟨iff_of_false Bool.noConfusion no, fun _ => ⟨nodes, low⟩⟩

/-- The bytes go into a file, into another buffer if they need one, and nothing is
changed when they do not. -/
theorem store_spec (ram : Ramfs) (m : Nat) (buf : List UInt8) :
    ((store ram m buf).1 = none ↔
      ¬((ram.nodes m).type = .file ∧ (storedLength buf ≤ (ram.nodes m).capacity ∨ Granted ram 0))) ∧
    ((store ram m buf).1 = none → (store ram m buf).2.nodes = ram.nodes ∧ (store ram m buf).2.low = ram.low) := by
  have length : (buf.take maxFileSize).length = storedLength buf := length_take
  unfold store
  split
  next other => exact ⟨iff_of_true rfl fun takes => other takes.1, fun _ => ⟨rfl, rfl⟩⟩
  next isFile =>
    have isFile := Decidable.not_not.mp isFile
    dsimp only
    split
    next long =>
      rw [length] at long
      obtain ⟨granted, refused⟩ := growBuffer_spec ram m (buf.take maxFileSize).length
      generalize growBuffer ram m (buf.take maxFileSize).length = outcome at granted refused ⊢
      obtain ⟨ok, grown⟩ := outcome
      cases ok with
      | true =>
        exact ⟨iff_of_false (fun no => nomatch no) fun no => no ⟨isFile, .inr (granted.mp rfl)⟩, fun no => nomatch no⟩
      | false =>
        refine ⟨iff_of_true rfl ?_, fun _ => refused rfl⟩
        rintro ⟨_, room | yes⟩
        · omega
        · exact Bool.noConfusion (granted.mpr yes)
    next room =>
      rw [length] at room
      exact ⟨iff_of_false (fun no => nomatch no) fun no => no ⟨isFile, .inl (by omega)⟩, fun no => nomatch no⟩

def parentOf (state : State) (fuel : Nat) (path : List UInt8) : Option Nat :=
  if (splitParent path).1 ≠ [] then (vfsLookup state fuel (splitParent path).1).join else some state.cwd

structure Creatable (state : State) (fuel : Nat) (path : List UInt8) (par : Nat) : Prop where
  target : (parseDrive state.drive path).1 = .c
  named : (splitParent path).2 ≠ []
  parent : parentOf state fuel path = some par
  isDir : (state.ram.nodes par).type = .dir
  new : lookupRel state.ram.nodes fuel par (splitParent path).2 = some none
  room : state.ram.nodeCount < maxNodes

/-- One piece of a path once the file called `name` has been put into `par`. That file is
the position `none`. -/
def hopWith (nodes : Nat → Node) (fuel par : Nat) (name : List UInt8) (cur : Option Nat) (part : List UInt8) :
    Option (Option Nat) :=
  if part = [] ∨ part = [0x2E] then some cur
  else
    match cur with
    | none => if part = [0x2E, 0x2E] then some (some par) else none
    | some cur =>
      if part = [0x2E, 0x2E] then some (some ((nodes cur).parent.getD cur))
      else if (nodes cur).type ≠ .dir then none
      else if cur = par ∧ part = name then some none
      else (findChild nodes fuel (nodes cur).child part).join.map some

def startOf (state : State) (path : List UInt8) : Nat :=
  if namesC path ∨ (path.head?.map Fat.isSeparator).getD false then root else state.cwd

/-- Where `vfs_lookup` will find a file for the path that has just been created in `par`. -/
def landing (state : State) (fuel par : Nat) (path : List UInt8) : Option (Option Nat) :=
  (pieces (stripC path).length (stripC path)).foldlM
    (hopWith state.ram.nodes fuel par (splitParent path).2) (some (startOf state path))

/-- The second lookup of `vfs_write` finds a file that can take the bytes. -/
def Lands (state : State) (fuel par : Nat) (path buf : List UInt8) : Prop :=
  match landing state fuel par path with
  | none => False
  | some none => storedLength buf ≤ 512 ∨ Granted state.ram 1
  | some (some m) => (state.ram.nodes m).type = .file ∧
      (storedLength buf ≤ (state.ram.nodes m).capacity ∨ Granted state.ram 1)

theorem strcpy_splitParent (path : List UInt8) : strcpy (splitParent path).2 nameMax = (splitParent path).2 := by
  unfold splitParent
  dsimp only
  split <;> simp [strcpy, take_take]

section NewFile

variable (tree : Tree state.ram kids) (home : state.cwd < state.ram.nodeCount) (enough : maxNodes < fuel)
include tree home enough

theorem vfsLookup_returns (path : List UInt8) : vfsLookup state fuel path = some (resolve state kids path) := by
  rcases vfsLookup_eq tree home path fuel with ⟨_, short⟩ | found
  · omega
  · exact found

omit home in
theorem lookupRel_returns {base : Nat} (inside : base < state.ram.nodeCount) (path : List UInt8) :
    lookupRel state.ram.nodes fuel base path = some (follow state.ram kids base path) := by
  rcases lookupRel_eq tree inside path fuel with ⟨_, short⟩ | found
  · omega
  · exact found

omit home in
theorem findChild_returns {m : Nat} (inside : m < state.ram.nodeCount) (part : List UInt8) :
    findChild state.ram.nodes fuel (state.ram.nodes m).child part =
      some ((kids m).find? fun c => decide ((state.ram.nodes c).name = part)) := by
  rcases findChild_eq (tree.lists m inside) part fuel with ⟨_, short⟩ | found
  · have few := tree.kids_length inside
    omega
  · exact found

theorem parentOf_eq (path : List UInt8) : parentOf state fuel path = place state kids path := by
  unfold parentOf place
  rw [vfsLookup_returns tree home enough]
  rfl

theorem creatable_of_made {n : Nat} {ram : Ramfs} {type : NodeType} (target : (parseDrive state.drive path).1 = .c)
    (ran : addNode state fuel path type = some (some (n, ram))) :
    ∃ par, Creatable state fuel path par ∧ Added state.ram ram par n (splitParent path).2 type := by
  obtain ⟨par, inside, isDir, added, named, placed, new⟩ := addNode_spec tree home ran
  refine ⟨par, ⟨target, named, ?_, isDir, ?_, added.room⟩, added⟩
  · rw [parentOf_eq tree home enough, placed]
  · rw [lookupRel_returns tree enough inside, new]

theorem Creatable.inside {par : Nat} (creatable : Creatable state fuel path par) : par < state.ram.nodeCount := by
  have placed := creatable.parent
  rw [parentOf_eq tree home enough] at placed
  exact place_inside tree home placed

theorem Creatable.made {par : Nat} (creatable : Creatable state fuel path par) (type : NodeType) :
    ∃ n ram, addNode state fuel path type = some (some (n, ram)) ∧
      Added state.ram ram par n (splitParent path).2 type := by
  have inside := creatable.inside tree home enough
  obtain ⟨target, named, parent, isDir, new, room⟩ := creatable
  have allocated : ∃ n ram, allocNode state.ram (splitParent path).2 type (some par) = some (n, ram) := by
    unfold allocNode
    rw [if_neg (by omega)]
    exact ⟨_, _, rfl⟩
  obtain ⟨n, ram, allocated⟩ := allocated
  refine ⟨n, ram, ?_, allocNode_added inside allocated⟩
  have here : allocIn state fuel (some par) (splitParent path).2 type = some (some (n, ram)) := by
    unfold allocIn
    dsimp only
    rw [if_neg (not_not.mpr isDir), new, ← allocated]
    rfl
  unfold addNode
  unfold parentOf at parent
  dsimp only
  rw [if_neg named]
  split
  next below =>
    rw [if_pos below, vfsLookup_returns tree home enough] at parent
    rw [vfsLookup_returns tree home enough, ← here]
    exact congrArg (allocIn state fuel · (splitParent path).2 type) parent
  next top =>
    rw [if_neg top] at parent
    rw [parent, here]

end NewFile

section Landing

variable {par n : Nat} {name : List UInt8} {type : NodeType} {other : Ramfs} (tree : Tree state.ram kids)
  (enough : maxNodes < fuel) (inside : par < state.ram.nodeCount) (added : Added state.ram other par n name type)
  (whole : strcpy name nameMax = name)
include tree enough inside added whole

def withNew (kids : Nat → List Nat) (par n : Nat) (d : Nat) : List Nat :=
  if d = n then [] else if d = par then n :: kids par else kids d

omit inside in
theorem hop_added {cur : Option Nat} {part : List UInt8} (below : ∀ m, cur = some m → m < state.ram.nodeCount) :
    hop other (withNew kids par n) (cur.getD n) part =
      (hopWith state.ram.nodes fuel par name cur part).map (·.getD n) := by
  have fresh := added.fresh
  unfold hop hopWith
  by_cases stay : part = [] ∨ part = [0x2E]
  · rw [if_pos stay, if_pos stay]
    rfl
  rw [if_neg stay, if_neg stay]
  cases cur with
  | none =>
    dsimp only [getD_none]
    by_cases up : part = [0x2E, 0x2E]
    · rw [if_pos up, if_pos up, added.node]
      rfl
    · rw [if_neg up, if_neg up]
      split
      next => rfl
      next =>
        -- Nothing is in a new directory.
        rw [withNew, if_pos rfl]
        rfl
  | some m =>
    have low := below m rfl
    obtain ⟨_, type, parent, _⟩ := added.old low
    dsimp only [getD_some]
    by_cases up : part = [0x2E, 0x2E]
    · rw [if_pos up, if_pos up, parent]
      rfl
    rw [if_neg up, if_neg up]
    by_cases leaf : (state.ram.nodes m).type ≠ .dir
    · rw [if_pos (type ▸ leaf), if_pos leaf]
      rfl
    rw [if_neg (type ▸ leaf), if_neg leaf]
    -- Older children keep their names.
    have older : (kids m).find? (fun c => decide ((other.nodes c).name = part)) =
        (kids m).find? fun c => decide ((state.ram.nodes c).name = part) := by
      refine find?_congr fun c member => ?_
      rw [(added.old (tree.kid_lt low member)).1]
    have notNew : m ≠ n := by omega
    have unwrap : ∀ found : Option Nat, ((some found).join.map some).map (·.getD n) = found := by
      intro found
      cases found <;> rfl
    rw [findChild_returns tree enough low]
    unfold withNew
    rw [if_neg notNew]
    by_cases here : m = par
    · have called : (other.nodes n).name = name := by
        rw [added.node]
        exact whole
      rw [if_pos here, find?_cons, called, ← here, older]
      by_cases is : name = part
      · simp [is]
      · rw [if_neg (fun both => is both.2.symm), unwrap, decide_eq_false is]
    · rw [if_neg here, if_neg (fun both => here both.1), unwrap, older]

omit added whole in
theorem hopWith_inside {cur next : Option Nat} {part : List UInt8} (below : ∀ m, cur = some m → m < state.ram.nodeCount)
    (hops : hopWith state.ram.nodes fuel par name cur part = some next) :
    ∀ m, next = some m → m < state.ram.nodeCount := by
  unfold hopWith at hops
  split at hops
  next =>
    cases hops
    exact below
  next =>
    cases cur with
    | none =>
      dsimp only at hops
      split at hops
      next =>
        cases hops
        rintro m ⟨⟩
        exact inside
      next => cases hops
    | some cur =>
      have low := below cur rfl
      dsimp only at hops
      split at hops
      next =>
        cases hops
        rintro m ⟨⟩
        cases parent : (state.ram.nodes cur).parent with
        | none => exact low
        | some d => exact Nat.lt_trans (tree.parent_lt low parent) low
      split at hops
      next => cases hops
      split at hops
      next =>
        cases hops
        intro m no
        cases no
      next =>
        rw [findChild_returns tree enough low] at hops
        obtain ⟨c, found, rfl⟩ := map_eq_some_iff.mp hops
        rintro m ⟨⟩
        exact tree.kid_lt low (mem_of_find?_eq_some found)

omit added whole in
theorem hopsWith_inside {cur next : Option Nat} {parts : List (List UInt8)}
    (below : ∀ m, cur = some m → m < state.ram.nodeCount)
    (hops : parts.foldlM (hopWith state.ram.nodes fuel par name) cur = some next) :
    ∀ m, next = some m → m < state.ram.nodeCount := by
  induction parts generalizing cur with
  | nil =>
    cases hops
    exact below
  | cons part rest ih =>
    rw [foldlM_cons, bind_eq_bind, bind_eq_some_iff] at hops
    obtain ⟨middle, first, others⟩ := hops
    exact ih (hopWith_inside tree enough inside below first) others

theorem hops_added {cur : Option Nat} (parts : List (List UInt8))
    (below : ∀ m, cur = some m → m < state.ram.nodeCount) :
    parts.foldlM (hop other (withNew kids par n)) (cur.getD n) =
      (parts.foldlM (hopWith state.ram.nodes fuel par name) cur).map (·.getD n) := by
  induction parts generalizing cur with
  | nil => rfl
  | cons part rest ih =>
    rw [foldlM_cons, foldlM_cons, hop_added tree enough added whole below]
    cases step : hopWith state.ram.nodes fuel par name cur part with
    | none => rfl
    | some next => exact ih (hopWith_inside tree enough inside below step)

end Landing

theorem SameTree.hop_eq {ram other : Ramfs} (same : SameTree ram other) (kids : Nat → List Nat) :
    hop other kids = hop ram kids := by
  funext cur part
  unfold hop
  simp only [same.name, same.type, same.parent]

theorem resolve_onC (onC : state.drive = .c) (target : (parseDrive state.drive path).1 = .c) :
    resolve state kids path = follow state.ram kids (startOf state path) path := by
  unfold resolve startOf
  rw [target, onC]
  by_cases empty : path = []
  · subst empty
    rfl
  · by_cases named : namesC path
    · simp [empty, named]
    · by_cases rooted : (path.head?.map Fat.isSeparator).getD false <;> simp [empty, named, rooted]

theorem startOf_inside (tree : Tree state.ram kids) (home : state.cwd < state.ram.nodeCount) (path : List UInt8) :
    ∀ m, some (startOf state path) = some m → m < state.ram.nodeCount := by
  rintro m ⟨⟩
  unfold startOf
  split
  · exact tree.rooted.1
  · exact home

theorem resolve_added {par n : Nat} {name : List UInt8} {type : NodeType} {ram : Ramfs} {later : State}
    (tree : Tree state.ram kids) (home : state.cwd < state.ram.nodeCount) (enough : maxNodes < fuel)
    (inside : par < state.ram.nodeCount) (added : Added state.ram ram par n name type)
    (whole : strcpy name nameMax = name) (same : SameTree ram later.ram) (cwd : later.cwd = state.cwd)
    (drive : later.drive = .c) (onC : state.drive = .c) (target : (parseDrive state.drive path).1 = .c) :
    resolve later (withNew kids par n) path =
      ((pieces (stripC path).length (stripC path)).foldlM (hopWith state.ram.nodes fuel par name)
        (some (startOf state path))).map (·.getD n) := by
  have starts : startOf later path = startOf state path := by
    unfold startOf
    rw [cwd]
  rw [onC] at target
  rw [resolve_onC drive (by rwa [drive]), starts]
  unfold follow
  rw [same.hop_eq]
  exact hops_added tree enough inside added whole _ (startOf_inside tree home path)

section Making

variable {par n : Nat} {ram : Ramfs} (tree : Tree state.ram kids) (home : state.cwd < state.ram.nodeCount)
  (enough : maxNodes < fuel) (onC : state.drive = .c)

theorem vfsCreateFile_made (onC : state.drive = .c) (target : (parseDrive state.drive path).1 = .c)
    (made : addNode state fuel path .file = some (some (n, ram))) :
    vfsCreateFile fuel path state = some ((giveBuffer ram n).1, { state with ram := (giveBuffer ram n).2 }) := by
  unfold vfsCreateFile
  dsimp only
  rw [if_neg (by rw [target, onC]; decide), made]
  rfl

theorem Added.granted {name : List UInt8} {type : NodeType} (added : Added state.ram ram par n name type) (index : Nat) :
    Granted ram index ↔ Granted state.ram index := by
  unfold Granted
  rw [added.memory.2.1]

theorem Added.capacity {name : List UInt8} {type : NodeType} (added : Added state.ram ram par n name type) {m : Nat}
    (below : m < state.ram.nodeCount) : (ram.nodes m).capacity = (state.ram.nodes m).capacity := by
  have notNew : m ≠ n := by
    have fresh := added.fresh
    omega
  by_cases here : m = par
  · rw [here, added.parent]
  · rw [added.rest m notNew here]

theorem vfsCreateFile_true (onC : state.drive = .c) (target : (parseDrive state.drive path).1 = .c)
    (ran : vfsCreateFile fuel path state = some (true, after)) :
    ∃ n ram, addNode state fuel path .file = some (some (n, ram)) ∧
      after = { state with ram := (giveBuffer ram n).2 } := by
  unfold vfsCreateFile at ran
  dsimp only at ran
  rw [if_neg (by rw [target, onC]; decide)] at ran
  obtain ⟨outcome, made, ran⟩ := bind_eq_some_iff.mp ran
  cases outcome with
  | none => cases ran
  | some made_ =>
    obtain ⟨n, ram⟩ := made_
    exact ⟨n, ram, made, (congrArg Prod.snd (Option.some.inj ran)).symm⟩

theorem vfsWrite_eq (onC : state.drive = .c) (target : (parseDrive state.drive path).1 = .c) (buf : List UInt8) :
    vfsWrite fuel path buf state = (vfsLookup state fuel path).bind fun found =>
      match found with
      | some n => some (storeAt state (some n) buf)
      | none => (vfsCreateFile fuel path state).bind fun created =>
        if created.1 then (vfsLookup created.2 fuel path).bind fun found => some (storeAt created.2 found buf)
        else some (none, created.2) := by
  unfold vfsWrite
  dsimp only
  rw [if_neg (by rw [target]; decide), if_neg (by rw [onC]; exact fun no => nomatch no.1)]
  rfl

include tree home enough onC

theorem vfsCreateFile_clean : (∀ after, vfsCreateFile fuel path state = some (false, after) → Untouched state after) ↔
    ∀ par, Creatable state fuel path par → Granted state.ram 0 := by
  constructor
  · intro clean par creatable
    obtain ⟨n, ram, made, added⟩ := creatable.made tree home enough .file
    have created := vfsCreateFile_made onC creatable.target made
    by_contra refused
    have failed : (giveBuffer ram n).1 = false := by
      rw [← Bool.not_eq_true, (giveBuffer_spec ram n).1, added.granted]
      exact refused
    rw [failed] at created
    exact Untouched.not_added tree (creatable.inside tree home enough) creatable.isDir NodeType.noConfusion added
      (fills_giveBuffer ram n).same.tree (clean _ created)
  · intro granted after ran
    unfold vfsCreateFile at ran
    dsimp only at ran
    split at ran
    next =>
      obtain ⟨⟨wrote, middle⟩, called, ran⟩ := bind_eq_some_iff.mp ran
      obtain ⟨_, rfl⟩ := Prod.mk.inj (Option.some.inj ran)
      exact untouched_of_onFat called
    next here =>
      obtain ⟨outcome, made, ran⟩ := bind_eq_some_iff.mp ran
      cases outcome with
      | none =>
        cases ran
        exact .refl state
      | some made_ =>
        obtain ⟨n, ram⟩ := made_
        have target : (parseDrive state.drive path).1 = .c := by
          cases drive : (parseDrive state.drive path).1 with
          | c => rfl
          | d => exact absurd (.inl drive) here
        obtain ⟨par, creatable, added⟩ := creatable_of_made tree home enough target made
        have given := (giveBuffer_spec ram n).1.mpr ((added.granted 0).mpr (granted par creatable))
        have ran := Option.some.inj ran
        rw [given] at ran
        cases ran

theorem storeAt_made {buf : List UInt8} (creatable : Creatable state fuel path par)
    (added : Added state.ram ram par n (splitParent path).2 .file) :
    ∃ found, vfsLookup { state with ram := (giveBuffer ram n).2 } fuel path = some found ∧
      ((storeAt { state with ram := (giveBuffer ram n).2 } found buf).1 = none ↔ ¬Lands state fuel par path buf) := by
  have inside := creatable.inside tree home enough
  have grown : Tree ram (withNew kids par n) := added.tree tree inside creatable.isDir NodeType.noConfusion
  have same := (fills_giveBuffer ram n).same.tree
  have count : state.ram.nodeCount ≤ (giveBuffer ram n).2.nodeCount := by
    rw [same.count, added.count, added.fresh]
    omega
  obtain ⟨_, later, capacity⟩ := giveBuffer_spec ram n
  -- The path leads to the landing place, with the new node for the new file.
  have leads : resolve { state with ram := (giveBuffer ram n).2 } (withNew kids par n) path =
      (landing state fuel par path).map (·.getD n) :=
    resolve_added tree home enough inside added (strcpy_splitParent path) same rfl onC onC creatable.target
  refine ⟨_, @vfsLookup_returns fuel { state with ram := (giveBuffer ram n).2 } _ (same.tree grown)
    (Nat.lt_of_lt_of_le home count) enough path, ?_⟩
  rw [leads]
  unfold Lands
  cases landed : landing state fuel par path with
  | none => exact iff_of_true rfl not_false
  | some target =>
    have store := (store_spec (giveBuffer ram n).2 (target.getD n) buf).1
    rw [later, added.granted] at store
    refine store.trans (not_congr ?_)
    cases target with
    | none =>
      dsimp only [getD_none]
      rw [capacity, same.type, added.node]
      exact and_iff_right rfl
    | some m =>
      have below := hopsWith_inside tree enough inside (startOf_inside tree home path) landed m rfl
      have differ : m ≠ n := by
        have fresh := added.fresh
        omega
      dsimp only [getD_some]
      rw [(fills_giveBuffer ram _).others _ differ, added.capacity below, (added.old below).2.1]

omit tree home enough onC in
theorem storeAt_failed {found : Option Nat} {buf : List UInt8} (ran : storeAt state found buf = (none, after)) :
    Untouched state after := by
  cases found with
  | none =>
    cases ran
    exact .refl state
  | some m =>
    have failed : (store state.ram m buf).1 = none := congrArg Prod.fst ran
    have is : { state with ram := (store state.ram m buf).2 } = after := congrArg Prod.snd ran
    obtain ⟨nodes, low⟩ := (store_spec state.ram m buf).2 failed
    rw [← is]
    exact .of_ram rfl rfl nodes low

/-- A file created on the way is left behind exactly when it gets no buffer, or when the bytes
cannot be stored where the second lookup looks. -/
theorem vfsWrite_clean (buf : List UInt8) :
    (∀ after, vfsWrite fuel path buf state = some (none, after) → Untouched state after) ↔
      ∀ par, vfsLookup state fuel path = some none → Creatable state fuel path par →
        Granted state.ram 0 ∧ Lands state fuel par path buf := by
  by_cases target : (parseDrive state.drive path).1 = .c
  swap
  · -- A call into the FAT driver.
    have onD : (parseDrive state.drive path).1 = .d := by
      cases drive : (parseDrive state.drive path).1 with
      | c => exact absurd drive target
      | d => rfl
    refine iff_of_true (fun after ran => ?_) fun par _ creatable => absurd creatable.target target
    unfold vfsWrite at ran
    dsimp only at ran
    rw [if_pos onD] at ran
    exact untouched_of_onFat ran
  rw [vfsWrite_eq onC target, vfsLookup_returns tree home enough path]
  cases resolve state kids path with
  | some m => exact iff_of_true (fun after ran => storeAt_failed (Option.some.inj ran)) fun par no => nomatch no
  | none =>
    dsimp only [bind_some]
    constructor
    · intro clean par _ creatable
      obtain ⟨n, ram, made, added⟩ := creatable.made tree home enough .file
      have touched : ∀ last : State, SameTree ram last.ram → ¬Untouched state last := fun last =>
        Untouched.not_added tree (creatable.inside tree home enough) creatable.isDir NodeType.noConfusion added
      rw [vfsCreateFile_made onC target made, bind_some] at clean
      by_cases granted : Granted state.ram 0
      · obtain ⟨found, looked, stored⟩ := storeAt_made tree home enough onC creatable added
        rw [if_pos ((giveBuffer_spec ram n).1.mpr ((added.granted 0).mpr granted)), looked] at clean
        refine ⟨granted, by_contra fun no => ?_⟩
        have kept := (storeAt_keeps { state with ram := (giveBuffer ram n).2 } found buf).1.tree
        refine touched _ ((fills_giveBuffer ram n).same.tree.trans kept) (clean _ ?_)
        rw [bind_some, ← stored.mpr no]
      · have refused : ¬(giveBuffer ram n).1 = true := by
          rw [(giveBuffer_spec ram n).1, added.granted]
          exact granted
        rw [if_neg refused] at clean
        exact absurd (clean _ rfl) (touched _ (fills_giveBuffer ram n).same.tree)
    · intro fine after ran
      obtain ⟨⟨ok, middle⟩, created, ran⟩ := bind_eq_some_iff.mp ran
      cases ok with
      | false =>
        cases ran
        exact (vfsCreateFile_clean tree home enough onC).mpr (fun par creatable => (fine par rfl creatable).1) _ created
      | true =>
        obtain ⟨n, ram, made, rfl⟩ := vfsCreateFile_true onC target created
        obtain ⟨par, creatable, added⟩ := creatable_of_made tree home enough target made
        obtain ⟨found, looked, stored⟩ := storeAt_made tree home enough onC creatable added
        rw [if_pos rfl, looked] at ran
        exact absurd (fine par rfl creatable).2 (stored.mp (congrArg Prod.fst (Option.some.inj ran)))

end Making

/-- On drive C a call of `vfs_mkdir`, `vfs_unlink` or `vfs_chdir` that fails changes nothing. The
same holds of `vfs_create_file` exactly when the new file is granted its buffer, and of
`vfs_write` exactly when moreover the second lookup ends at a file that can take the bytes. -/
theorem failed_calls_change_nothing {first fuel : Nat} {blank start state : State} {calls : List Call}
    (began : vfsInit first blank = some start) (run : Run Step start calls state) (onC : state.drive = .c)
    (enough : maxNodes < fuel) (path buf : List UInt8) :
    (∀ after, vfsMkdir fuel path state = some (false, after) → Untouched state after) ∧
      (∀ after, vfsUnlink fuel path state = some (false, after) → Untouched state after) ∧
      (∀ after, vfsChdir fuel path state = some (false, after) → Untouched state after) ∧
      ((∀ after, vfsCreateFile fuel path state = some (false, after) → Untouched state after) ↔
        ∀ par, Creatable state fuel path par → Granted state.ram 0) ∧
      ((∀ after, vfsWrite fuel path buf state = some (none, after) → Untouched state after) ↔
        ∀ par, vfsLookup state fuel path = some none → Creatable state fuel path par →
          Granted state.ram 0 ∧ Lands state fuel par path buf) := by
  obtain ⟨kids, tree, home⟩ := (Run.keeps run (vfsInit_consistent began)).1
  exact ⟨fun _ => vfsMkdir_failed, fun _ => vfsUnlink_failed, fun _ => vfsChdir_failed,
    vfsCreateFile_clean tree home enough onC, vfsWrite_clean tree home enough onC buf⟩

theorem bareState_starts : ∃ start, vfsInit 129 bareState = some start ∧ start.drive = .c ∧ start.ram.grants = [] ∧
    Creatable start 129 (text "x") start.cwd := by
  have facts : (vfsInit 129 bareState).map (fun start => (start.drive, start.ram.grants.length,
      decide ((start.ram.nodes start.cwd).type = .dir), lookupRel start.ram.nodes 129 start.cwd (text "x"),
      decide (start.ram.nodeCount < maxNodes))) = some (.c, 0, true, some none, true) := by
    decide +kernel
  obtain ⟨start, began, values⟩ := map_eq_some_iff.mp facts
  simp only [Prod.mk.injEq, decide_eq_true_eq, length_eq_zero_iff] at values
  obtain ⟨drive, grants, isDir, new, room⟩ := values
  have split : splitParent (text "x") = ([], text "x") := by decide
  refine ⟨start, began, drive, grants, ?_, ?_, ?_, isDir, ?_, room⟩
  · rw [drive]
    decide
  · rw [split]
    decide
  · unfold parentOf
    rw [split]
    rfl
  · rw [split]
    exact new

theorem failed_calls_change_nothing_mkdir : ∃ start, vfsInit 129 bareState = some start ∧ start.drive = .c ∧
    ∀ after, vfsMkdir 129 (text "readme.txt") start = some (false, after) → Untouched start after := by
  obtain ⟨start, began, onC, _⟩ := bareState_starts
  exact ⟨start, began, onC,
    (failed_calls_change_nothing began (.done start) onC (by decide) (text "readme.txt") []).1⟩

/-- A file that gets no buffer stays in its directory although `vfs_create_file` fails. -/
theorem file_without_buffer_stays : ∃ start after, vfsInit 129 bareState = some start ∧ start.drive = .c ∧
    vfsCreateFile 129 (text "x") start = some (false, after) ∧ ¬Untouched start after := by
  obtain ⟨start, began, onC, grants, creatable⟩ := bareState_starts
  obtain ⟨kids, tree, home⟩ := vfsInit_consistent began
  have dirty := mt (vfsCreateFile_clean tree home (by decide : maxNodes < 129) onC).mp fun granted => by
    obtain ⟨buffer, is⟩ := granted _ creatable
    rw [grants] at is
    cases is
  push Not at dirty
  obtain ⟨after, ran, touched⟩ := dirty
  exact ⟨start, after, began, onC, ran, touched⟩

end GWKernel.Vfs
