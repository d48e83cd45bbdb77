import GWKernel.Proofs.FatRoom
import GWKernel.Proofs.FatLookup
import GWKernel.Proofs.RamfsSafety

/-! The current directories of the two drives, which `vfs_unlink` and `fat_unlink` do not spare.
Apart from that, and from failures that damage a FAT volume, they stay reachable from the root. -/

namespace GWKernel.Fat
open Lib List Option

inductive FatCall where
  | mkdir (path : List UInt8)
  | write (path data : List UInt8)
  | read (path : List UInt8) (maxlen : Nat)
  | unlink (path : List UInt8)
  | chdir (path : List UInt8)
  | list (path : List UInt8)

def FatCall.run (fuel : Nat) (state : State) : FatCall → Option (Bool × State)
  | mkdir path => (fatMkdir state.vol fuel path state.medium).map fun result => (result.1, ⟨state.vol, result.2⟩)
  | write path data =>
    (fatWriteFile state.vol fuel path data state.medium).map fun result => (result.1.isSome, ⟨state.vol, result.2⟩)
  | read path maxlen =>
    (fatReadFile state.vol fuel path maxlen state.medium).map fun result => (result.1.isSome, ⟨state.vol, result.2⟩)
  | unlink path => (fatUnlink state.vol fuel path state.medium).map fun result => (result.1, ⟨state.vol, result.2⟩)
  | chdir path => (fatChdir state.vol fuel path state.medium).map fun result => (result.1.1, ⟨result.1.2, result.2⟩)
  | list path =>
    (fatList state.vol fuel path state.medium).map fun result => (result.1.isSome, ⟨state.vol, result.2⟩)

/-- What a call must respect: names can be stored, the current directory is not unlinked, and there
is room for what is made or written. -/
structure FatCall.Careful (call : FatCall) (state : State) : Prop where
  named : ∀ path, call = .mkdir path ∨ (∃ data, call = .write path data) → StorableLeaf path
  spared : ∀ path, call = .unlink path → ∀ fuel size final,
    resolveFull state.vol fuel path state.medium ≠ some (some (state.vol.cwdCluster, size, true), final)
  makes : ∀ path, call = .mkdir path → RoomToMake state.vol (view state.vol state.medium.disk) path
  writes : ∀ path data, call = .write path data → data.length ≤ 512 * 64 →
    RoomToCreate state.vol (view state.vol state.medium.disk) path data ∧
      RoomToReplace state.vol (view state.vol state.medium.disk) path data

variable {state after : State} {call : FatCall} {fuel : Nat} {ok : Bool}

/-- A call that fails keeps the variables of the volume, and so does every one but
`fat_chdir`. -/
theorem FatCall.vol_eq (ran : call.run fuel state = some (ok, after)) (failed : ok = false ∨ ∀ path, call ≠ .chdir path) :
    after.vol = state.vol := by
  cases call with
  | chdir path =>
    obtain rfl : ok = false := failed.resolve_right fun other => other path rfl
    obtain ⟨⟨⟨value, vol⟩, medium⟩, returned, is⟩ := map_eq_some_iff.mp ran
    cases is
    have spec : Ends False (fatChdir state.vol fuel path) state.medium fun result _ =>
        result.1 = false → result.2 = state.vol := by
      unfold fatChdir
      refine Ends.branch (fun _ => ?_) fun _ => Ends.pure fun _ => rfl
      have resolved : Ends False (resolveFull state.vol fuel path) state.medium fun _ _ => True :=
        ⟨False.elim, fun _ _ _ => trivial⟩
      refine resolved.bind fun found middle _ => ?_
      split
      · exact Ends.branch (fun _ => Ends.pure nofun) fun _ => Ends.branch (fun _ => Ends.pure nofun) fun _ =>
          Ends.branch (fun _ => Ends.pure nofun) fun _ => Ends.pure nofun
      · exact Ends.pure fun _ => rfl
    exact spec.2 _ _ returned rfl
  | mkdir | write | read | unlink | list =>
    obtain ⟨_, _, is⟩ := map_eq_some_iff.mp ran
    cases is
    rfl

theorem Consistent.same_view (consistent : Consistent state) (vol : after.vol = state.vol)
    (same : view state.vol after.medium.disk = view state.vol state.medium.disk) : Consistent after := by
  obtain ⟨mounted, faultless, sane, formed, home⟩ := consistent
  obtain ⟨_, _⟩ := after
  cases vol
  refine ⟨mounted, faultless, sane, ?_, ?_⟩
  · unfold WellFormed at formed ⊢
    rwa [same]
  · unfold IsDirectory at home ⊢
    rwa [same]

theorem FatCall.read_disk {path : List UInt8} {maxlen : Nat}
    (ran : FatCall.run fuel state (.read path maxlen) = some (ok, after)) : after.medium.disk = state.medium.disk := by
  obtain ⟨⟨bytes, final⟩, returned, is⟩ := map_eq_some_iff.mp ran
  obtain ⟨_, rfl⟩ := Prod.mk.inj is
  exact (fatReadFile_moves fuel path maxlen _ _ _ returned).nothing.1

theorem FatCall.list_disk {path : List UInt8} (ran : FatCall.run fuel state (.list path) = some (ok, after)) :
    after.medium.disk = state.medium.disk := by
  obtain ⟨⟨lines, final⟩, returned, is⟩ := map_eq_some_iff.mp ran
  obtain ⟨_, rfl⟩ := Prod.mk.inj is
  exact (fatList_moves fuel path _ _ _ returned).nothing.1

/-- With room a call that fails leaves the volume as it is. -/
theorem FatCall.failed (consistent : Consistent state) (careful : call.Careful state)
    (ran : call.run fuel state = some (false, after)) :
    view state.vol after.medium.disk = view state.vol state.medium.disk := by
  cases call with
  | mkdir path =>
    obtain ⟨⟨_, final⟩, returned, is⟩ := map_eq_some_iff.mp ran
    cases is
    exact ((fatMkdir_ends consistent.ready path).2 _ _ returned).failed (careful.makes path rfl)
  | write path data =>
    obtain ⟨⟨wrote, final⟩, returned, is⟩ := map_eq_some_iff.mp ran
    cases wrote with
    | some size => cases is
    | none =>
      cases is
      by_cases small : data.length ≤ 512 * 64
      · obtain ⟨create, replace⟩ := careful.writes path data rfl small
        exact ((fatWriteFile_ends consistent.ready path data).2 _ _ returned).unchanged create replace
      · rw [fatWriteFile, if_neg fun checks => small checks.2.2] at returned
        cases returned
        rfl
  | unlink path =>
    obtain ⟨⟨_, final⟩, returned, is⟩ := map_eq_some_iff.mp ran
    cases is
    exact ((fatUnlink_ends consistent.ready path).2 _ _ returned).failed
  | chdir path =>
    obtain ⟨⟨⟨_, moved⟩, final⟩, returned, is⟩ := map_eq_some_iff.mp ran
    cases is
    exact congrArg _ ((fatChdir_tells fuel path).2 _ _ returned).1.1
  | read path maxlen => exact congrArg _ (read_disk ran)
  | list path => exact congrArg _ (list_disk ran)

theorem FatCall.keeps (consistent : Consistent state) (careful : call.Careful state)
    (ran : call.run fuel state = some (ok, after)) : Consistent after := by
  cases ok with
  | false => exact consistent.same_view (vol_eq ran (.inl rfl)) (failed consistent careful ran)
  | true =>
    cases call with
    | mkdir path =>
      obtain ⟨⟨_, final⟩, returned, is⟩ := map_eq_some_iff.mp ran
      cases is
      exact consistent.mkdir (careful.named path (.inl rfl)) returned
    | write path data =>
      obtain ⟨⟨wrote, final⟩, returned, is⟩ := map_eq_some_iff.mp ran
      cases wrote with
      | none => cases is
      | some size =>
        cases is
        exact consistent.write (careful.named path (.inr ⟨data, rfl⟩)) returned
    | unlink path =>
      obtain ⟨⟨_, final⟩, returned, is⟩ := map_eq_some_iff.mp ran
      cases is
      exact consistent.unlink returned (careful.spared path rfl)
    | chdir path =>
      obtain ⟨⟨⟨_, moved⟩, final⟩, returned, is⟩ := map_eq_some_iff.mp ran
      cases is
      exact consistent.chdir returned
    | read path maxlen =>
      exact consistent.same_view (vol_eq ran (.inr fun _ => FatCall.noConfusion)) (congrArg _ (read_disk ran))
    | list path =>
      exact consistent.same_view (vol_eq ran (.inr fun _ => FatCall.noConfusion)) (congrArg _ (list_disk ran))

theorem FatCall.unmounted (none : state.vol.mounted = false) (ran : call.run fuel state = some (ok, after)) :
    after.vol = state.vol := by
  cases call with
  | chdir path =>
    refine vol_eq ran (.inl ?_)
    obtain ⟨_, returned, is⟩ := map_eq_some_iff.mp ran
    rw [fatChdir, none] at returned
    cases returned
    cases is
    rfl
  | mkdir | write | read | unlink | list => exact vol_eq ran (.inr fun _ => FatCall.noConfusion)

theorem FatCall.careful_chdir (path : List UInt8) (state : State) : (chdir path).Careful state := by
  refine ⟨fun _ made => ?_, fun _ => nofun, fun _ => nofun, fun _ _ => nofun⟩
  rcases made with made | ⟨_, made⟩ <;> cases made

/-- The result of `resolve_full` does not depend on the fuel. -/
theorem resolveFull_same {path : List UInt8} {enough : Nat} {found other : Option (Nat × Nat × Bool)} {final : Medium}
    (consistent : Consistent state) (ran : (resolveFull state.vol enough path state.medium).map Prod.fst = some found)
    (again : resolveFull state.vol fuel path state.medium = some (other, final)) : found = other := by
  obtain ⟨⟨_, last⟩, first, rfl⟩ := map_eq_some_iff.mp ran
  exact Option.ext fun leaf => (((resolveFull_ends consistent.ready path).2 _ _ first).2 leaf).trans
    (((resolveFull_ends consistent.ready path).2 _ _ again).2 leaf).symm

theorem freeCount_freeAll {vol : Volume} (v : View) (cs : List Nat) : v.freeCount vol ≤ (v.freeAll cs).freeCount vol := by
  refine countP_mono_left fun c _ free => ?_
  simp only [View.freeAll, beq_iff_eq] at free ⊢
  split
  · rfl
  · exact free

def Fit (state : State) : Prop := state.vol.mounted = true → Consistent state

theorem FatCall.fit (fit : Fit state) (careful : call.Careful state) (ran : call.run fuel state = some (ok, after)) :
    Fit after := by
  intro mounted
  cases before : state.vol.mounted with
  | true => exact keeps (fit before) careful ran
  | false =>
    rw [unmounted before ran, before] at mounted
    cases mounted

end GWKernel.Fat

namespace GWKernel.Vfs
open Lib List Option
open Fat (FatCall)

variable {state after : State} {kids : Nat → List Nat} {fuel : Nat} {path : List UInt8}

def State.fat (state : State) : Fat.State := ⟨state.vol, state.medium⟩

/-- The calls of the FAT driver that a VFS call leads to. -/
def Call.fatCalls (state : State) : Call → List FatCall
  | .mkdir path =>
    let (target, p) := parseDrive state.drive path
    if target = .d ∨ state.drive = .d then [.mkdir (if namesD path then p else path)] else []
  | .createFile path =>
    let (target, p) := parseDrive state.drive path
    if target = .d ∨ state.drive = .d then [.write (if target = .d then p else path) []] else []
  | .write path buf =>
    let (target, p) := parseDrive state.drive path
    if target = .d then [.write p buf]
    else if state.drive = .d ∧ namesC path = false then [.write path buf]
    else if state.drive = .d ∧ vfsLookup state (maxNodes + 1) path = some none then [.write path []]
    else []
  | .read path maxlen =>
    let (target, p) := parseDrive state.drive path
    if target = .d then [.read p maxlen]
    else if state.drive = .d ∧ namesC path = false then [.read path maxlen]
    else []
  | .unlink path =>
    let (target, p) := parseDrive state.drive path
    if target = .d then [.unlink p]
    else if state.drive = .d ∧ namesC path = false then [.unlink path]
    else []
  | .chdir path =>
    let (target, p) := parseDrive state.drive path
    if target = .d ∨ namesD path then [.chdir (if p = [] then [0x2F] else p), .chdir p]
    else if state.drive = .d then [.chdir path]
    else []

inductive FatStep (state : Fat.State) (calls : List FatCall) (after : Fat.State) : Prop where
  | idle (same : after = state)
  | called {call : FatCall} {fuel : Nat} {ok : Bool} (member : call ∈ calls)
      (ran : call.run fuel state = some (ok, after))
  | twice {first second : List UInt8} {fuel : Nat} {one other : Bool} {middle : Fat.State}
      (ran : (FatCall.chdir first).run fuel state = some (one, middle))
      (again : (FatCall.chdir second).run fuel middle = some (other, after))

variable {ok : Bool}

theorem onFatChdir_run (ran : onFatChdir state fuel path = some (ok, after)) :
    (FatCall.chdir path).run fuel state.fat = some (ok, after.fat) := by
  obtain ⟨_, _, _, called⟩ := onFatChdir_keeps ran
  exact map_eq_some_iff.mpr ⟨_, called, rfl⟩

theorem onFat_run {α : Type} {code : Fat.Io α} {result : α} {call : FatCall} (ok : α → Bool)
    (is : call.run fuel state.fat = (code state.medium).map fun found => (ok found.1, ⟨state.vol, found.2⟩))
    (ran : onFat state code = some (result, after)) : call.run fuel state.fat = some (ok result, after.fat) := by
  obtain ⟨_, _, _, vol, called⟩ := onFat_keeps ran
  rw [is, called, State.fat, vol]
  rfl

theorem vfsMkdir_fat (ran : vfsMkdir fuel path state = some (ok, after)) :
    FatStep state.fat ((Call.mkdir path).fatCalls state) after.fat := by
  unfold vfsMkdir at ran
  unfold Call.fatCalls
  dsimp only at ran ⊢
  split at ran
  next onD =>
    rw [if_pos onD]
    exact .called mem_cons_self (onFat_run id rfl ran)
  next =>
    obtain ⟨made, _, ran⟩ := bind_eq_some_iff.mp ran
    cases made with
    | none | some =>
      cases ran
      exact .idle rfl

theorem vfsCreateFile_fat (ran : vfsCreateFile fuel path state = some (ok, after)) :
    FatStep state.fat ((Call.createFile path).fatCalls state) after.fat := by
  unfold vfsCreateFile at ran
  unfold Call.fatCalls
  dsimp only at ran ⊢
  split at ran
  next onD =>
    rw [if_pos onD]
    obtain ⟨⟨wrote, middle⟩, called, ran⟩ := bind_eq_some_iff.mp ran
    cases ran
    exact .called mem_cons_self (onFat_run Option.isSome rfl called)
  next =>
    obtain ⟨made, _, ran⟩ := bind_eq_some_iff.mp ran
    cases made with
    | none | some =>
      cases ran
      exact .idle rfl

theorem vfsRead_fat {maxlen : Nat} {bytes : Option (List UInt8)}
    (ran : vfsRead fuel path maxlen state = some (bytes, after)) :
    FatStep state.fat ((Call.read path maxlen).fatCalls state) after.fat := by
  unfold vfsRead at ran
  unfold Call.fatCalls
  dsimp only at ran ⊢
  split at ran
  next onD =>
    rw [if_pos onD]
    exact .called mem_cons_self (onFat_run Option.isSome rfl ran)
  next notD =>
    rw [if_neg notD]
    split at ran
    next onD =>
      rw [if_pos onD]
      exact .called mem_cons_self (onFat_run Option.isSome rfl ran)
    next =>
      obtain ⟨found, _, ran⟩ := bind_eq_some_iff.mp ran
      cases found with
      | none =>
        cases ran
        exact .idle rfl
      | some n =>
        dsimp only at ran
        split at ran <;> cases ran <;> exact .idle rfl

theorem vfsUnlink_fat (ran : vfsUnlink fuel path state = some (ok, after)) :
    FatStep state.fat ((Call.unlink path).fatCalls state) after.fat := by
  unfold vfsUnlink at ran
  unfold Call.fatCalls
  dsimp only at ran ⊢
  split at ran
  next onD =>
    rw [if_pos onD]
    exact .called mem_cons_self (onFat_run id rfl ran)
  next notD =>
    rw [if_neg notD]
    split at ran
    next onD =>
      rw [if_pos onD]
      exact .called mem_cons_self (onFat_run id rfl ran)
    next =>
      obtain ⟨found, _, ran⟩ := bind_eq_some_iff.mp ran
      cases found with
      | none =>
        cases ran
        exact .idle rfl
      | some n =>
        dsimp only at ran
        split at ran
        next =>
          cases ran
          exact .idle rfl
        next =>
          split at ran
          next =>
            cases ran
            exact .idle rfl
          next =>
            obtain ⟨nodes, _, ran⟩ := bind_eq_some_iff.mp ran
            cases ran
            exact .idle rfl

theorem chdirD_fat {p : List UInt8} (ran : chdirD fuel p state = some (ok, after)) :
    FatStep state.fat [.chdir (if p = [] then [0x2F] else p), .chdir p] after.fat := by
  obtain ⟨⟨entered, middle⟩, first, ran⟩ := bind_eq_some_iff.mp ran
  cases entered with
  | true =>
    cases ran
    have called := onFatChdir_run first
    exact .called mem_cons_self called
  | false =>
    obtain ⟨⟨entered, last⟩, second, ran⟩ := bind_eq_some_iff.mp ran
    have again := onFatChdir_run second
    cases entered with
    | true | false =>
      cases ran
      exact .twice (onFatChdir_run first) again

theorem enter_fat (state : State) (found : Option Nat) : (enter state found).2.fat = state.fat := by
  unfold enter
  split
  · rfl
  · split <;> rfl

theorem vfsChdir_fat (ran : vfsChdir fuel path state = some (ok, after)) :
    FatStep state.fat ((Call.chdir path).fatCalls state) after.fat := by
  unfold vfsChdir at ran
  unfold Call.fatCalls
  dsimp only at ran ⊢
  split at ran
  next onD =>
    rw [if_pos onD]
    exact chdirD_fat ran
  next notD =>
    rw [if_neg notD]
    split at ran
    next =>
      obtain ⟨found, _, ran⟩ := bind_eq_some_iff.mp ran
      have same := enter_fat state found
      rw [Option.some.inj ran] at same
      exact .idle same
    split at ran
    next onD =>
      rw [if_pos onD]
      exact .called mem_cons_self (onFatChdir_run ran)
    next =>
      obtain ⟨found, _, ran⟩ := bind_eq_some_iff.mp ran
      have same := enter_fat state found
      rw [Option.some.inj ran] at same
      exact .idle same

theorem storeAt_fat (state : State) (found : Option Nat) (buf : List UInt8) :
    (storeAt state found buf).2.fat = state.fat := by
  cases found <;> rfl

theorem vfsWrite_fat {buf : List UInt8} {wrote : Option Nat} (tree : Tree state.ram kids)
    (home : state.cwd < state.ram.nodeCount) (ran : vfsWrite fuel path buf state = some (wrote, after)) :
    FatStep state.fat ((Call.write path buf).fatCalls state) after.fat := by
  unfold vfsWrite at ran
  unfold Call.fatCalls
  dsimp only at ran ⊢
  split at ran
  next onD =>
    rw [if_pos onD]
    exact .called mem_cons_self (onFat_run Option.isSome rfl ran)
  next notD =>
    rw [if_neg notD]
    split at ran
    next onD =>
      rw [if_pos onD]
      exact .called mem_cons_self (onFat_run Option.isSome rfl ran)
    next notOnD =>
      rw [if_neg notOnD]
      obtain ⟨found, looked, ran⟩ := bind_eq_some_iff.mp ran
      cases found with
      | some n =>
        have same := storeAt_fat state (some n) buf
        rw [Option.some.inj ran] at same
        exact .idle same
      | none =>
        obtain ⟨⟨made, middle⟩, created, ran⟩ := bind_eq_some_iff.mp ran
        have missing : vfsLookup state (maxNodes + 1) path = some none := by
          rw [vfsLookup_resolves tree home looked]
          exact (vfsLookup_eq tree home path (maxNodes + 1)).resolve_left fun short => by omega
        have step : FatStep state.fat (if state.drive = .d ∧ vfsLookup state (maxNodes + 1) path = some none
            then [.write path []] else []) middle.fat := by
          have step := vfsCreateFile_fat created
          unfold Call.fatCalls at step
          dsimp only at step
          simpa only [notD, missing, false_or, and_true, if_false] using step
        cases made with
        | false =>
          cases ran
          exact step
        | true =>
          obtain ⟨found, _, ran⟩ := bind_eq_some_iff.mp ran
          have same := storeAt_fat middle found buf
          rw [Option.some.inj ran] at same
          exact same ▸ step

theorem Step.fatStep {call : Call} (tree : Tree state.ram kids) (home : state.cwd < state.ram.nodeCount)
    (step : Step state call after) : FatStep state.fat (call.fatCalls state) after.fat := by
  obtain ⟨fuel, ran⟩ := step
  cases call with
  | mkdir path =>
    obtain ⟨_, returned, rfl⟩ := map_eq_some_iff.mp ran
    exact vfsMkdir_fat returned
  | createFile path =>
    obtain ⟨_, returned, rfl⟩ := map_eq_some_iff.mp ran
    exact vfsCreateFile_fat returned
  | write path buf =>
    obtain ⟨_, returned, rfl⟩ := map_eq_some_iff.mp ran
    exact vfsWrite_fat tree home returned
  | read path maxlen =>
    obtain ⟨_, returned, rfl⟩ := map_eq_some_iff.mp ran
    exact vfsRead_fat returned
  | unlink path =>
    obtain ⟨_, returned, rfl⟩ := map_eq_some_iff.mp ran
    exact vfsUnlink_fat returned
  | chdir path =>
    obtain ⟨_, returned, rfl⟩ := map_eq_some_iff.mp ran
    exact vfsChdir_fat returned

/-- A call of the VFS, or of the FAT driver itself. -/
inductive Event where
  | vfs (call : Call)
  | fat (call : FatCall)

inductive EventStep : State → Event → State → Prop where
  | vfs {state after : State} {call : Call} (step : Step state call after) : EventStep state (.vfs call) after
  | fat {state : State} {call : FatCall} {vol : Fat.Volume} {medium : Fat.Medium} {fuel : Nat} {ok : Bool}
      (ran : call.run fuel state.fat = some (ok, ⟨vol, medium⟩)) :
      EventStep state (.fat call) { state with vol := vol, medium := medium }

/-- No `unlink` hits the current directory of its drive, and FAT calls respect their conditions.
-/
def Event.Careful (state : State) : Event → Prop
  | .vfs call => (∀ path, call = .unlink path → (parseDrive state.drive path).1 = .c →
      ∀ fuel, vfsLookup state fuel path ≠ some (some state.cwd)) ∧ ∀ fatCall ∈ call.fatCalls state, fatCall.Careful state.fat
  | .fat fatCall => fatCall.Careful state.fat

def CarefulStep (state : State) (event : Event) (after : State) : Prop :=
  event.Careful state ∧ EventStep state event after

def AtHome (state : State) : Prop :=
  ∃ kids, Tree state.ram kids ∧ state.cwd < state.ram.nodeCount ∧ (state.ram.nodes state.cwd).type = .dir

theorem AtHome.step {call : Call} (atHome : AtHome state)
    (spared : ∀ path, call = .unlink path → (parseDrive state.drive path).1 = .c →
      ∀ fuel, vfsLookup state fuel path ≠ some (some state.cwd))
    (step : Step state call after) : AtHome after := by
  obtain ⟨kids, tree, home, isDir⟩ := atHome
  obtain ⟨⟨now, later, inside⟩, _⟩ := step.keeps ⟨kids, tree, home⟩
  refine ⟨now, later, inside, ?_⟩
  cases step.ramStep tree home with
  | creates _ creates cwd => rw [cwd, creates.grows.type home, isDir]
  | moves same moved =>
    rw [same]
    rcases moved with cwd | moved
    · rw [cwd, isDir]
    · exact moved.2
  | @removes path n is onC leads _ removed cwd =>
    rcases removed.type state.cwd with ⟨here, _⟩ | kept
    · have found := (vfsLookup_eq tree home path (maxNodes + 1)).resolve_left fun short => by omega
      rw [leads, ← here] at found
      exact absurd found (spared path is onC _)
    · rw [cwd, kept, isDir]

theorem CarefulStep.keeps {event : Event} (atHome : AtHome state) (fit : Fat.Fit state.fat)
    (step : CarefulStep state event after) : AtHome after ∧ Fat.Fit after.fat := by
  obtain ⟨careful, step⟩ := step
  cases step with
  | vfs step =>
    refine ⟨atHome.step careful.1 step, ?_⟩
    obtain ⟨kids, tree, home, _⟩ := atHome
    cases step.fatStep tree home with
    | idle same => exact same ▸ fit
    | called member ran => exact FatCall.fit fit (careful.2 _ member) ran
    | twice first second =>
      exact FatCall.fit (FatCall.fit fit (FatCall.careful_chdir _ _) first) (FatCall.careful_chdir _ _) second
  | fat ran => exact ⟨atHome, FatCall.fit fit careful ran⟩

/-- In a run whose calls respect the conditions, each current directory is a directory under its
root. -/
theorem current_directories_valid {start final : State} {events : List Event} (atHome : AtHome start)
    (fit : start.vol.mounted = true → Fat.Consistent ⟨start.vol, start.medium⟩)
    (run : Run CarefulStep start events final) :
    (Linked final.ram.nodes final.cwd ∧ (final.ram.nodes final.cwd).type = .dir) ∧
      (final.vol.mounted = true → Fat.IsDirectory final.vol final.medium.disk final.vol.cwdCluster) := by
  have kept : AtHome final ∧ Fat.Fit final.fat :=
    @Run.preserves _ _ CarefulStep (fun state => AtHome state ∧ Fat.Fit state.fat)
      (fun _ _ _ holds step => step.keeps holds.1 holds.2) _ _ _ run ⟨atHome, fit⟩
  obtain ⟨⟨kids, tree, home, isDir⟩, good⟩ := kept
  refine ⟨⟨tree.linked_iff.mpr ⟨home, ?_⟩, isDir⟩, fun mounted => (good mounted).home⟩
  rw [isDir]
  exact NodeType.noConfusion

def emptyState : State :=
  ⟨⟨fun _ => { Node.zero with type := .dir }, 1, fun _ => 0, [], []⟩, root, .c, Fat.sampleVolume 2 2, Fat.emptyMedium 2⟩

theorem roomy_write : (FatCall.write [0x46] [1, 2, 3]).Careful emptyState.fat := by
  have free : 2 ≤ (Fat.view emptyState.fat.vol emptyState.fat.medium.disk).freeCount emptyState.fat.vol := by decide +kernel
  refine ⟨fun path is => ?_, fun _ => nofun, fun _ => nofun, fun path data is _ => ?_⟩
  · obtain rfl : path = [0x46] := by
      rcases is with no | ⟨data, is⟩
      · cases no
      · exact (FatCall.write.inj is).1.symm
    exact (Fat.validPath_single (by decide) (by decide)).leaf
  · cases is
    refine ⟨fun _ _ _ _ _ _ => .inr ?_, fun _ _ _ _ _ cs _ _ _ _ => .inr ?_⟩
    · refine Nat.le_trans (by decide) (Nat.mul_le_mul_right (512 * emptyState.fat.vol.secPerCluster) (show 1 ≤ _ from ?_))
      split <;> omega
    · exact Nat.le_trans (by decide) (Nat.mul_le_mul_right (512 * emptyState.fat.vol.secPerCluster)
        (free.trans (Fat.freeCount_freeAll _ cs)))

/-- A file is written and removed on drive D and a directory is made and removed on drive C. -/
theorem current_directories_valid_after_unlink : ∃ final, Run CarefulStep emptyState
      [.fat (.write [0x46] [1, 2, 3]), .vfs (.unlink (text "D:/F")), .vfs (.mkdir (text "a")), .vfs (.unlink (text "a")),
        .vfs (.chdir (text "D:/"))] final ∧
    Linked final.ram.nodes final.cwd ∧ (final.ram.nodes final.cwd).type = .dir ∧
    Fat.IsDirectory final.vol final.medium.disk final.vol.cwdCluster := by
  have facts : (((FatCall.write [0x46] [1, 2, 3]).run 200 emptyState.fat).bind fun wrote =>
      ((Call.unlink (text "D:/F")).run 200 { emptyState with vol := wrote.2.vol, medium := wrote.2.medium }).bind fun second =>
      ((Call.mkdir (text "a")).run 200 second).bind fun third =>
      ((Call.unlink (text "a")).run 200 third).bind fun fourth =>
      ((Call.chdir (text "D:/")).run 200 fourth).map fun final => decide (
        (Fat.resolveFull wrote.2.vol 200 (text "F") wrote.2.medium).map Prod.fst = some (some (3, 3, false)) ∧
        ((Call.mkdir (text "a")).fatCalls second).isEmpty ∧ ((Call.unlink (text "a")).fatCalls third).isEmpty ∧
        vfsLookup third 129 (text "a") = some (some 1) ∧ third.cwd = 0 ∧ final.vol.mounted = true)) = some true := by
    decide +kernel
  obtain ⟨⟨ok, vol, medium⟩, one, facts⟩ := bind_eq_some_iff.mp facts
  obtain ⟨second, two, facts⟩ := bind_eq_some_iff.mp facts
  obtain ⟨third, three, facts⟩ := bind_eq_some_iff.mp facts
  obtain ⟨fourth, four, facts⟩ := bind_eq_some_iff.mp facts
  obtain ⟨final, five, facts⟩ := map_eq_some_iff.mp facts
  obtain ⟨resolved, idle, still, looked, home, mounted⟩ := of_decide_eq_true facts
  have atHome : AtHome emptyState := ⟨_, tree_root _ rfl rfl, Nat.one_pos, rfl⟩
  have fit : Fat.Fit emptyState.fat := fun _ => Fat.emptyMedium_consistent
  have written : Fat.Consistent ⟨vol, medium⟩ := FatCall.keeps Fat.emptyMedium_consistent roomy_write one
  have wrote : CarefulStep emptyState (.fat (.write [0x46] [1, 2, 3])) { emptyState with vol, medium } :=
    ⟨roomy_write, .fat one⟩
  have removed : CarefulStep { emptyState with vol, medium } (.vfs (.unlink (text "D:/F"))) second := by
    refine ⟨⟨fun path is onC => ?_, fun call member => ?_⟩, .vfs ⟨200, two⟩⟩
    · cases is
      cases onC
    · obtain rfl := mem_singleton.mp member
      refine ⟨fun _ made => ?_, fun path is fuel size final again => ?_, fun _ => nofun, fun _ _ => nofun⟩
      · rcases made with made | ⟨_, made⟩ <;> cases made
      · cases is
        have kind := congrArg (fun found => found.map fun leaf => leaf.2.2) (Fat.resolveFull_same written resolved again)
        cases kind
  have made : CarefulStep second (.vfs (.mkdir (text "a"))) third := by
    refine ⟨⟨fun _ => nofun, ?_⟩, .vfs ⟨200, three⟩⟩
    rw [List.isEmpty_iff.mp idle]
    exact fun _ none => nomatch none
  have before : AtHome third := by
    have first := (wrote.keeps atHome fit)
    have next := removed.keeps first.1 first.2
    exact (made.keeps next.1 next.2).1
  have unlinked : CarefulStep third (.vfs (.unlink (text "a"))) fourth := by
    refine ⟨⟨fun path is _ fuel again => ?_, ?_⟩, .vfs ⟨200, four⟩⟩
    · cases is
      obtain ⟨kids, tree, inside, _⟩ := before
      have same := (vfsLookup_resolves tree inside looked).trans (vfsLookup_resolves tree inside again).symm
      rw [home] at same
      cases same
    · rw [List.isEmpty_iff.mp still]
      exact fun _ none => nomatch none
  have moved : CarefulStep fourth (.vfs (.chdir (text "D:/"))) final := by
    refine ⟨⟨fun _ => nofun, fun call member => ?_⟩, .vfs ⟨200, five⟩⟩
    rcases mem_pair.mp member with rfl | rfl
    · exact FatCall.careful_chdir _ _
    · exact FatCall.careful_chdir _ _
  have run : Run CarefulStep emptyState _ final :=
    .next wrote (.next removed (.next made (.next unlinked (.next moved (.done final)))))
  obtain ⟨⟨linked, isDir⟩, onD⟩ := current_directories_valid atHome fit run
  exact ⟨final, run, linked, isDir, onD mounted⟩

/-- The current directory can be removed once it is empty. -/
theorem unlink_removes_current_directory : ∃ start final, vfsInit 129 bareState = some start ∧
    Run Step start [.unlink (text "readme.txt"), .unlink (text ".")] final ∧ ¬Linked final.ram.nodes final.cwd := by
  have facts : (boot 129 bareState [.unlink (text "readme.txt"), .unlink (text ".")]).map
      (fun final => decide ((final.ram.nodes final.cwd).type = .cleared)) = some true := by decide +kernel
  obtain ⟨final, ran, cleared⟩ := map_eq_some_iff.mp facts
  obtain ⟨start, began, run⟩ := boot_runs ran
  obtain ⟨kids, tree, _⟩ := (Run.keeps run (vfsInit_consistent began)).1
  exact ⟨start, final, began, run, fun linked => (tree.linked_iff.mp linked).2 (of_decide_eq_true cleared)⟩

end GWKernel.Vfs
