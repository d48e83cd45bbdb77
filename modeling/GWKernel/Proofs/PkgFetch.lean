import GWKernel.Pkg
import GWKernel.Proofs.FailedCalls

/-! Fetching a package: what pkg_fetch takes for a complete one. -/

namespace GWKernel.Pkg
open Lib Vfs List Option

variable {state after : State} {fuel : Nat} {path uname : List UInt8}

section Returns

/-- The state that the calls since `vfs_init` have led to, with drive C current. -/
structure AtC (state : State) : Prop where
  consistent : Consistent state
  drive : state.drive = .c

theorem AtC.target (atC : AtC state) (notD : namesD path = false) : (parseDrive state.drive path).1 = .c := by
  unfold parseDrive
  split
  · rfl
  · rw [notD, atC.drive]
    rfl

theorem AtC.stays {α : Type} {call : Call} {code : Option (α × State)} (atC : AtC state)
    (steps : ∀ result, code = some result → Step state call result.2)
    (runs : ∃ result, code = some result ∧ result.2.drive = .c) : ∃ result, code = some result ∧ AtC result.2 := by
  obtain ⟨result, ran, drive⟩ := runs
  exact ⟨result, ran, ((steps result ran).keeps atC.consistent).1, drive⟩

variable (enough : maxNodes < fuel)
include enough

theorem addNode_returns (consistent : Consistent state) (path : List UInt8) (type : NodeType) :
    ∃ made, addNode state fuel path type = some made := by
  obtain ⟨kids, tree, home⟩ := consistent
  have allocates : ∀ par : Option Nat, (∀ n, par = some n → n < state.ram.nodeCount) →
      ∃ made, allocIn state fuel par (splitParent path).2 type = some made := by
    intro par inside
    unfold allocIn
    cases par with
    | none => exact ⟨none, rfl⟩
    | some n =>
      dsimp only
      split
      · exact ⟨none, rfl⟩
      · rw [lookupRel_returns tree enough (inside n rfl)]
        cases follow state.ram kids n (splitParent path).2 with
        | none | some => exact ⟨_, rfl⟩
  unfold addNode
  dsimp only
  split
  · exact ⟨none, rfl⟩
  split
  · rw [vfsLookup_returns tree home enough]
    exact allocates _ fun n found => resolve_inside tree home found
  · refine allocates _ fun n is => ?_
    cases is
    exact home

theorem vfsMkdir_returns (atC : AtC state) (notD : namesD path = false) :
    ∃ result, vfsMkdir fuel path state = some result ∧ AtC result.2 := by
  obtain ⟨made, added⟩ := addNode_returns enough atC.consistent path .dir
  refine atC.stays (fun result ran => (⟨fuel, by rw [Call.run, ran]; rfl⟩ : Step state (.mkdir path) result.2)) ?_
  unfold vfsMkdir
  dsimp only
  rw [if_neg (by rw [atC.target notD, atC.drive]; simp), added]
  cases made with
  | none | some => exact ⟨_, rfl, atC.drive⟩

theorem vfsCreateFile_returns (atC : AtC state) (notD : namesD path = false) :
    ∃ result, vfsCreateFile fuel path state = some result ∧ AtC result.2 := by
  obtain ⟨made, added⟩ := addNode_returns enough atC.consistent path .file
  refine atC.stays (fun result ran => (⟨fuel, by rw [Call.run, ran]; rfl⟩ : Step state (.createFile path) result.2)) ?_
  unfold vfsCreateFile
  dsimp only
  rw [if_neg (by rw [atC.target notD, atC.drive]; simp), added]
  cases made with
  | none | some => exact ⟨_, rfl, atC.drive⟩

theorem vfsWrite_returns (atC : AtC state) (notD : namesD path = false) (buf : List UInt8) :
    ∃ result, vfsWrite fuel path buf state = some result ∧ AtC result.2 := by
  have stores : ∀ (found : Option Nat) (state : State), (storeAt state found buf).2.drive = state.drive := by
    intro found state
    cases found with
    | none | some => rfl
  refine atC.stays (fun result ran => (⟨fuel, by rw [Call.run, ran]; rfl⟩ : Step state (.write path buf) result.2)) ?_
  obtain ⟨kids, tree, home⟩ := atC.consistent
  unfold vfsWrite
  dsimp only
  rw [if_neg (by simp [atC.target notD]), if_neg (by simp [atC.drive]), vfsLookup_returns tree home enough]
  cases resolve state kids path with
  | some n => exact ⟨_, rfl, (stores _ _).trans atC.drive⟩
  | none =>
    obtain ⟨⟨made, new⟩, created, later⟩ := vfsCreateFile_returns enough atC notD
    obtain ⟨after, shape, inside⟩ := later.consistent
    dsimp only [bind_eq_bind, bind_some]
    rw [created]
    dsimp only [bind_some]
    cases made with
    | false => exact ⟨_, rfl, later.drive⟩
    | true =>
      rw [if_pos rfl, vfsLookup_returns shape inside enough]
      exact ⟨_, rfl, (stores _ _).trans later.drive⟩

theorem vfsChdir_returns (consistent : Consistent state) (onC : namesC path) :
    ∃ result, vfsChdir fuel path state = some result ∧ Consistent result.2 ∧ (state.drive = .c → result.2.drive = .c) := by
  suffices runs : ∃ result, vfsChdir fuel path state = some result ∧ (state.drive = .c → result.2.drive = .c) by
    obtain ⟨result, ran, drive⟩ := runs
    have step : Step state (.chdir path) result.2 := ⟨fuel, by rw [Call.run, ran]; rfl⟩
    exact ⟨result, ran, (step.keeps consistent).1, drive⟩
  obtain ⟨kids, tree, home⟩ := consistent
  have notD : ¬((parseDrive state.drive path).1 = .d ∨ namesD path) := by
    rw [parseDrive_namesC onC]
    rintro (no | onD)
    · cases no
    · rw [namesC_of_namesD onD] at onC
      cases onC
  unfold vfsChdir
  dsimp only
  rw [if_neg notD, if_pos onC, lookupRel_returns tree enough tree.rooted.1]
  refine ⟨_, rfl, fun drive => ?_⟩
  unfold enter
  split
  · exact drive
  · split
    · exact drive
    · rfl

/-- The root is there, so drive C is current afterwards. -/
theorem vfsChdir_root (consistent : Consistent state) :
    ∃ result, vfsChdir fuel (text "C:/") state = some result ∧ AtC result.2 := by
  obtain ⟨result, ran, kept, _⟩ := vfsChdir_returns enough consistent (show namesC (text "C:/") by decide)
  refine ⟨result, ran, kept, ?_⟩
  obtain ⟨_, tree, _⟩ := consistent
  have entered : some (enter state (some root)) = some result := ran
  unfold enter at entered
  dsimp only at entered
  rw [if_neg (not_not.mpr tree.rooted.2.1)] at entered
  cases entered
  rfl

omit enough in
theorem foldlM_returns {α : Type} {code : State → α → Option State} {items : List α}
    (each : ∀ item ∈ items, ∀ state, AtC state → ∃ after, code state item = some after ∧ AtC after) (atC : AtC state) :
    ∃ after, items.foldlM code state = some after ∧ AtC after := by
  induction items generalizing state with
  | nil => exact ⟨state, rfl, atC⟩
  | cons item rest ih =>
    obtain ⟨middle, ran, between⟩ := each item mem_cons_self state atC
    obtain ⟨after, later, final⟩ := ih (fun item member => each item (mem_cons_of_mem _ member)) between
    exact ⟨after, by rw [foldlM_cons, ran]; exact later, final⟩

theorem ensureDirs_returns (consistent : Consistent state) : ∃ after, ensureDirs fuel state = some after ∧ AtC after := by
  obtain ⟨result, entered, atC⟩ := vfsChdir_root enough consistent
  unfold ensureDirs
  rw [entered]
  refine foldlM_returns (fun path member state atC => ?_) atC
  have notD : ∀ path ∈ fixedDirs, namesD path = false := by decide
  obtain ⟨result, made, later⟩ := vfsMkdir_returns enough atC (notD path member)
  exact ⟨result.2, by rw [made]; rfl, later⟩

omit enough in
theorem append_fits {buffer s : List UInt8} {max : Nat} (fits : buffer.length + s.length < max) :
    append buffer s max = buffer ++ s := by
  unfold append
  rw [take_of_length_le (by omega)]

omit enough in
theorem cacheDir_eq (short : uname.length ≤ 8) : cacheDir uname = cacheRoot ++ 0x2F :: uname := by
  have length : cacheRoot.length = 18 := by decide
  unfold cacheDir
  rw [show strcpy cacheRoot 96 = cacheRoot by decide, append_fits (by simp [length]; omega), append_assoc]
  rfl

omit enough in
/-- Every path in the cache begins with the letter of drive C. -/
theorem namesD_cached (short : uname.length ≤ 8) : (∀ last, namesD (append (strcpy (cacheDir uname) 112) last 112) = false) ∧
    ∀ fname, namesD (filePath (cacheDir uname) fname) = false := by
  have root : cacheRoot.length = 18 := by decide
  have length : (cacheRoot ++ 0x2F :: uname).length = 19 + uname.length := by simp [root]; omega
  rw [cacheDir_eq short]
  constructor
  · intro last
    rw [show strcpy (cacheRoot ++ 0x2F :: uname) 112 = cacheRoot ++ 0x2F :: uname from take_of_length_le (by omega)]
    rfl
  · intro fname
    unfold filePath
    dsimp only
    rw [show strcpy (cacheRoot ++ 0x2F :: uname) 128 = cacheRoot ++ 0x2F :: uname from take_of_length_le (by omega),
      if_pos (by omega)]
    rfl

theorem unpackManifest_returns {base : List UInt8} (blob : List UInt8) (atC : AtC state)
    (notD : ∀ last, namesD (append (strcpy base 112) last 112) = false) :
    ∃ result, unpackManifest fuel base blob state = some result ∧ AtC result.2 := by
  unfold unpackManifest
  split
  · dsimp only
    generalize toMark _ = parts
    obtain ⟨result, wrote, later⟩ := vfsWrite_returns enough atC (notD (text "/MANIFEST.TXT")) parts.1
    rw [wrote]
    exact ⟨_, rfl, later⟩
  · exact ⟨_, rfl, atC⟩

theorem unpackPkg_returns (blob : List UInt8) (consistent : Consistent state) (short : uname.length ≤ 8)
    (notD : namesD uname = false) : ∃ result, unpackPkg fuel uname blob state = some result := by
  obtain ⟨inCache, files⟩ := namesD_cached short
  obtain ⟨ready, ensured, atC⟩ := ensureDirs_returns enough consistent
  obtain ⟨entered, moved, kept, drive⟩ := vfsChdir_returns enough atC.consistent (show namesC cacheRoot by decide)
  obtain ⟨made, makes, atC⟩ := vfsMkdir_returns enough ⟨kept, drive atC.drive⟩ notD
  obtain ⟨wrote, writes, atC⟩ := vfsWrite_returns enough atC (inCache (text "/PKG.TXT")) blob
  obtain ⟨rest, listed, atC⟩ := unpackManifest_returns enough blob atC inCache
  have each : ∀ file ∈ packageFiles rest.1.length rest.1, ∀ state, AtC state →
      ∃ after, (vfsWrite fuel (filePath (cacheDir uname) file.1) file.2 state).map Prod.snd = some after ∧ AtC after := by
    intro file _ state atC
    obtain ⟨result, ran, later⟩ := vfsWrite_returns enough atC (files file.1) file.2
    exact ⟨result.2, by rw [ran]; rfl, later⟩
  obtain ⟨after, unpacked, _⟩ := foldlM_returns each atC
  refine ⟨((packageFiles rest.1.length rest.1).length, after), ?_⟩
  unfold unpackPkg
  simp only [ensured, moved, makes, writes, listed, unpacked, bind_eq_bind, bind_some]

/-- A name on drive D would hand the first directory to the FAT driver. -/
theorem pkgFetch_returns (name blob : List UInt8) (consistent : Consistent state) (notD : namesD (upper8 name) = false) :
    ∃ ok after, pkgFetch fuel name (some blob) state = some (ok, after) := by
  unfold pkgFetch
  split
  · exact ⟨_, _, rfl⟩
  · exact ⟨_, _, rfl⟩
  · exact ⟨_, _, rfl⟩
  next text _ _ _ =>
    obtain ⟨result, unpacked⟩ := unpackPkg_returns enough text consistent (by simp [upper8]) notD
    rw [unpacked]
    exact ⟨_, _, rfl⟩

end Returns

def afterManifest (blob : List UInt8) : List UInt8 :=
  if starts blob manifestMark then
    let p := blob.drop manifestMark.length
    let p := if p.head? = some 0x0D then p.tail else p
    let p := if p.head? = some 0x0A then p.tail else p
    (toMark p).2
  else blob

theorem unpackManifest_rest {base blob rest : List UInt8}
    (ran : unpackManifest fuel base blob state = some (rest, after)) : rest = afterManifest blob := by
  unfold unpackManifest at ran
  unfold afterManifest
  split at ran
  next marked =>
    rw [if_pos marked]
    obtain ⟨_, _, ran⟩ := bind_eq_some_iff.mp ran
    cases ran
    rfl
  next unmarked =>
    cases ran
    rw [if_neg unmarked]

def roomyState : State := { bareState with ram := { bareState.ram with grants := List.replicate 8 (some fun _ => 0) } }

def helloBlob : List UInt8 :=
  text "---MANIFEST---\nname: hello\nfile: README.TXT\n---FILE:README.TXT---\nhi\n---END---\n"

def helloManifest : List UInt8 := text "name: hello\nfile: README.TXT\n"

/-- No mark begins in `body`, with `more` behind it. -/
def Unmarked (body more : List UInt8) : Prop :=
  ∀ index < body.length, ∀ mark ∈ [fileMark, endMark], ¬mark <+: (body ++ more).drop index

instance (body more : List UInt8) : Decidable (Unmarked body more) := inferInstanceAs (Decidable (∀ _ < _, _))

/-- The file sections of a package, and its end. -/
def sections : List (List UInt8 × List UInt8) → List UInt8
  | [] => endMark ++ [0x0A]
  | (name, data) :: rest => fileMark ++ (name ++ (text "---\n" ++ (data ++ sections rest)))

def packageText (manifest : List UInt8) (files : List (List UInt8 × List UInt8)) : List UInt8 :=
  manifestMark ++ 0x0A :: (manifest ++ sections files)

/-- File names without a dash or a line end, and contents without a mark. -/
def PlainFiles : List (List UInt8 × List UInt8) → Prop
  | [] => True
  | (name, data) :: rest => (name ≠ [] ∧ 0x2D ∉ name ∧ 0x0A ∉ name) ∧ Unmarked data (sections rest) ∧ PlainFiles rest

structure Documented (manifest : List UInt8) (files : List (List UInt8 × List UInt8)) : Prop where
  manifest : Unmarked manifest (sections files)
  nonempty : files ≠ []
  files : PlainFiles files

theorem starts_iff {s pfx : List UInt8} : starts s pfx = true ↔ pfx <+: s := isPrefixOf_iff_prefix

theorem toMark_suffix (p : List UInt8) : (toMark p).2 <:+ p := by
  induction p with
  | nil => exact suffix_rfl
  | cons char rest ih =>
    rw [toMark]
    split
    · exact suffix_rfl
    · exact ih.trans (suffix_cons char rest)

theorem toMark_cut {body more cut : List UInt8} (unmarked : Unmarked body (fileMark ++ more))
    (within : cut <+: body ++ (fileMark ++ more)) :
    starts (toMark cut).2 fileMark = true ↔ body.length + fileMark.length ≤ cut.length := by
  induction body generalizing cut with
  | nil =>
    rw [length_nil, Nat.zero_add]
    by_cases long : fileMark.length ≤ cut.length
    · have marked := starts_iff.mpr (prefix_of_prefix_length_le (prefix_append fileMark more) within long)
      refine iff_of_true ?_ long
      cases cut with
      | nil => exact absurd long (by decide)
      | cons char rest =>
        rw [toMark, marked, Bool.true_or, if_pos rfl]
        exact marked
    · refine iff_of_false (fun begins => long ?_) long
      exact (starts_iff.mp begins).length_le.trans (toMark_suffix cut).length_le
  | cons char body ih =>
    cases cut with
    | nil => exact iff_of_false (by decide) (by simp)
    | cons head cut =>
      obtain ⟨rfl, inner⟩ := cons_prefix_cons.mp within
      have clear : ∀ mark ∈ [fileMark, endMark], ¬starts (head :: cut) mark = true := fun mark is begins =>
        unmarked 0 (Nat.zero_lt_succ _) mark is ((starts_iff.mp begins).trans within)
      have tail : Unmarked body (fileMark ++ more) := fun index small => unmarked (index + 1) (Nat.succ_lt_succ small)
      rw [toMark, if_neg (by simp [clear]), ih tail inner, length_cons, length_cons]
      omega

theorem pkgFetch_files {name blob : List UInt8} {ok : Bool} (named : name ≠ [])
    (ran : pkgFetch fuel name (some blob) state = some (ok, after)) :
    ok = true ↔ starts (afterManifest blob) fileMark = true := by
  obtain ⟨first, more, rfl⟩ := exists_cons_of_ne_nil named
  cases blob with
  | nil =>
    cases ran
    decide
  | cons char rest =>
    obtain ⟨⟨files, last⟩, unpacked, ran⟩ := bind_eq_some_iff.mp ran
    cases ran
    unfold unpackPkg at unpacked
    obtain ⟨_, _, unpacked⟩ := bind_eq_some_iff.mp unpacked
    obtain ⟨_, _, unpacked⟩ := bind_eq_some_iff.mp unpacked
    obtain ⟨_, _, unpacked⟩ := bind_eq_some_iff.mp unpacked
    obtain ⟨_, _, unpacked⟩ := bind_eq_some_iff.mp unpacked
    obtain ⟨⟨p, _⟩, listed, unpacked⟩ := bind_eq_some_iff.mp unpacked
    obtain ⟨_, _, unpacked⟩ := bind_eq_some_iff.mp unpacked
    cases unpacked
    rw [← unpackManifest_rest listed, decide_eq_true_iff]
    cases p with
    | nil => decide
    | cons char rest =>
      rw [length_cons, packageFiles]
      split
      next marked => simp [marked]
      next unmarked => simp [unmarked]

/-- A package that was cut off is reported as fetched as soon as the mark of its first file has
arrived. The call returns in every state that calls lead to after `vfs_init`, for a name that is not on drive D. -/
theorem cut_fetch_fails_iff {manifest cut name : List UInt8} {files : List (List UInt8 × List UInt8)}
    (documented : Documented manifest files) (within : cut <+: packageText manifest files) (named : name ≠ []) :
    (∀ fuel state ok after, pkgFetch fuel name (some cut) state = some (ok, after) →
      (ok = false ↔ cut.length < (manifestMark ++ 0x0A :: manifest ++ fileMark).length)) ∧
    ∀ first blank boot calls state fuel, vfsInit first blank = some boot → Run Step boot calls state →
      maxNodes < fuel → namesD (upper8 name) = false →
      ∃ ok after, pkgFetch fuel name (some cut) state = some (ok, after) := by
  refine ⟨fun fuel state ok after ran => ?_, fun first blank boot calls state fuel began run enough notD =>
    pkgFetch_returns enough name cut (Run.keeps run (vfsInit_consistent began)).1 notD⟩
  rw [← Bool.not_eq_true, pkgFetch_files named ran, ← not_le]
  refine not_congr ?_
  obtain ⟨unmarked, nonempty, _⟩ := documented
  obtain ⟨file, others, rfl⟩ := exists_cons_of_ne_nil nonempty
  by_cases long : manifestMark.length ≤ cut.length
  · obtain ⟨rest, rfl⟩ := prefix_of_prefix_length_le (prefix_append _ _) within long
    have marked : starts (manifestMark ++ rest) manifestMark = true := starts_iff.mpr (prefix_append _ _)
    rw [packageText, prefix_append_right_inj] at within
    cases rest with
    | nil => exact iff_of_false (by decide) (by simp)
    | cons char rest =>
      obtain ⟨rfl, inner⟩ := cons_prefix_cons.mp within
      have behind : afterManifest (manifestMark ++ 0x0A :: rest) = (toMark rest).2 := by
        rw [afterManifest, if_pos marked, drop_left]
        rfl
      rw [behind, toMark_cut unmarked inner]
      simp only [length_append, length_cons]
      omega
  · -- not even the first mark is complete
    have short : ¬starts cut manifestMark = true := fun begins => long (starts_iff.mp begins).length_le
    rw [afterManifest, if_neg short]
    refine iff_of_false (fun begins => ?_) (by simp; omega)
    have apart : ¬starts manifestMark fileMark = true := by decide
    have part := prefix_of_prefix_length_le within (prefix_append _ _) (Nat.le_of_not_le long)
    exact apart (starts_iff.mpr ((starts_iff.mp begins).trans part))

theorem helloBlob_documented : Documented helloManifest [(text "README.TXT", text "hi\n")] :=
  ⟨by decide +kernel, by decide, ⟨by decide, by decide, by decide⟩, by decide +kernel, trivial⟩

theorem cut_fetch_fails_for_hello : ∃ start after, vfsInit 129 roomyState = some start ∧
    pkgFetch 129 (text "hello") (some (helloBlob.take 51)) start = some (false, after) := by
  have runs : (vfsInit 129 roomyState).isSome = true := by decide +kernel
  obtain ⟨start, began⟩ := isSome_iff_exists.mp runs
  obtain ⟨fails, returns⟩ := cut_fetch_fails_iff helloBlob_documented ( take_prefix 51 helloBlob)
    (show text "hello" ≠ [] by decide)
  obtain ⟨ok, after, fetched⟩ := returns 129 _ start [] start 129 began (.done _) (by decide) (by decide)
  have failed := (fails 129 start ok after fetched).mpr (by decide)
  exact ⟨start, after, began, failed ▸ fetched⟩

/-- The package ends inside the name of its only file. -/
theorem cut_fetch_succeeds : ∃ start after, vfsInit 129 roomyState = some start ∧
    helloBlob = packageText helloManifest [(text "README.TXT", text "hi\n")] ∧ ¬endMark <:+: helloBlob.take 56 ∧
    pkgFetch 129 (text "hello") (some (helloBlob.take 56)) start = some (true, after) := by
  have runs : ((vfsInit 129 roomyState).bind fun start =>
      (pkgFetch 129 (text "hello") (some (helloBlob.take 56)) start).map Prod.fst) = some true := by decide +kernel
  obtain ⟨start, began, runs⟩ := bind_eq_some_iff.mp runs
  obtain ⟨⟨_, after⟩, fetched, rfl⟩ := map_eq_some_iff.mp runs
  exact ⟨start, after, began, by decide +kernel, by decide +kernel, fetched⟩

end GWKernel.Pkg
