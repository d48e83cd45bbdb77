import GWKernel.Proofs.CurrentDirectory
import GWKernel.Proofs.FatCwd

/-! Paths that begin with a drive and a separator. Behind `D:/` the FAT driver resolves a path
from its current directory, and `vfs_mkdir` and `vfs_create_file` hand a path on drive C to it
while drive D is the current one, so such a path does not name one file in every state. -/

namespace GWKernel.Vfs
open Lib
open Fat (isSeparator)

variable {s t : State} {fuel : Nat} {path : List UInt8} {α β : Type}

/-- `C:/` or `D:/`, with either case and either slash. -/
def Absolute (path : List UInt8) : Prop := (namesC path ∨ namesD path) ∧ (path[2]?.map isSeparator).getD false = true

instance (path : List UInt8) : Decidable (Absolute path) := inferInstanceAs (Decidable (_ ∧ _))

/-- The same RAMFS and the same FAT volume, whatever the current drive and directories. -/
structure Alike (s t : State) : Prop where
  ram : t.ram = s.ram
  medium : t.medium = s.medium
  vol : ∃ cwd text, t.vol = s.vol.moveTo cwd text

def Agree (x y : Option (α × State)) : Prop := Option.Rel (fun p q => q.1 = p.1 ∧ Alike p.2 q.2) x y

theorem Agree.same (value : α) (alike : Alike s t) : Agree (some (value, s)) (some (value, t)) :=
  Option.Rel.some ⟨rfl, alike⟩

variable {x y : Option (α × State)}

theorem Agree.cases (agree : Agree x y) :
    x = none ∧ y = none ∨ ∃ value s t, x = some (value, s) ∧ y = some (value, t) ∧ Alike s t := by
  cases agree with
  | none => exact .inl ⟨rfl, rfl⟩
  | @some p q related =>
    obtain ⟨value, s⟩ := p
    obtain ⟨again, t⟩ := q
    obtain ⟨rfl, alike⟩ := related
    exact .inr ⟨again, s, t, rfl, rfl, alike⟩

theorem Agree.bind {f g : α × State → Option (β × State)} (agree : Agree x y)
    (next : ∀ value s t, Alike s t → Agree (f (value, s)) (g (value, t))) : Agree (x.bind f) (y.bind g) := by
  rcases agree.cases with ⟨rfl, rfl⟩ | ⟨value, s, t, rfl, rfl, alike⟩
  · exact Option.Rel.none
  · exact next value s t alike

theorem Agree.bind_value {x : Option α} {f g : α → Option (β × State)} (next : ∀ value, Agree (f value) (g value)) :
    Agree (x.bind f) (x.bind g) := by
  cases x with
  | none => exact Option.Rel.none
  | some value => exact next value

theorem Agree.map {f : α → β} (agree : Agree x y) :
    Agree (x.map fun result => (f result.1, result.2)) (y.map fun result => (f result.1, result.2)) := by
  cases agree with
  | none => exact Option.Rel.none
  | some related => exact Option.Rel.some ⟨congrArg f related.1, related.2⟩

theorem onFat_agree (alike : Alike s t) {code other : Fat.Io α} (same : other = code) :
    Agree (onFat s code) (onFat t other) := by
  unfold onFat
  rw [same, alike.medium]
  cases code s.medium with
  | none => exact Option.Rel.none
  | some result => exact Option.Rel.some ⟨rfl, alike.ram, rfl, alike.vol⟩

theorem onFatChdir_agree (alike : Alike s t) (unseen : Fat.Unseen s.vol t.vol.cwdCluster path) :
    Agree (onFatChdir s fuel path) (onFatChdir t fuel path) := by
  obtain ⟨cwd, text, moved⟩ := alike.vol
  have same := @Fat.fatChdir_unseen s.vol t.vol.cwdCluster text fuel path unseen s.medium
  have here : t.vol = s.vol.moveTo t.vol.cwdCluster text := by
    rw [moved]
    rfl
  unfold onFatChdir
  rw [alike.medium, here]
  generalize Fat.fatChdir (s.vol.moveTo t.vol.cwdCluster text) fuel path s.medium = y at same ⊢
  generalize Fat.fatChdir s.vol fuel path s.medium = x at same ⊢
  cases x with
  | none =>
    cases y with
    | none => exact Option.Rel.none
    | some _ => cases same
  | some result =>
    cases y with
    | none => cases same
    | some other =>
      obtain ⟨ok, rest⟩ := Prod.mk.inj (Option.some.inj same)
      obtain ⟨vol, medium⟩ := Prod.mk.inj rest
      have back := congrArg (fun volume => Fat.Volume.moveTo volume other.1.2.cwdCluster other.1.2.cwdPath) vol
      exact Option.Rel.some ⟨ok, alike.ram, medium, other.1.2.cwdCluster, other.1.2.cwdPath, back⟩

def SameStart (s t : State) : Prop := s.vol.mounted = false ∨ t.vol.cwdCluster = s.vol.cwdCluster

theorem SameStart.unseen (same : SameStart s t) (path : List UInt8) : Fat.Unseen s.vol t.vol.cwdCluster path := by
  rcases same with none | same
  · exact .inl none
  · right; right; left
    unfold Fat.startCluster
    rw [same]
    rfl

def SameTurn (s t : State) : Prop := s.drive = .c ∧ t.drive = .c ∨ s.drive = .d ∧ t.drive = .d ∧ SameStart s t

/-- Behind `D:/`: nothing follows, or it leads to the root of the volume first, or it is resolved from
the same directory. -/
def SameFile (s t : State) (path : List UInt8) : Prop :=
  SameStart s t ∨ (parseDrive s.drive path).2 = [] ∨
    Fat.rises (Fat.pathParts (parseDrive s.drive path).2.length (parseDrive s.drive path).2) = true

def Call.Independent (s t : State) : Call → Prop
  | .mkdir path => (namesC path → SameTurn s t) ∧ (namesD path → SameFile s t path)
  | .createFile path => (namesC path → SameTurn s t) ∧ (namesD path → SameFile s t path)
  | .write path buf => (namesC path → SameTurn s t ∨ ∀ fuel, vfsLookup s fuel path ≠ some none) ∧
    (namesD path → SameFile s t path ∨ 512 * 64 < buf.length)
  | .read path _ => namesD path → SameFile s t path
  | .unlink path => namesD path → SameFile s t path
  | .chdir path => namesD path → SameFile s t path

/-- The FAT driver looks up the first component of a path in its current directory, which is another
one in the other state. -/
structure Relative (s t : State) (path : List UInt8) : Prop where
  mounted : s.vol.mounted = true
  apart : t.vol.cwdCluster ≠ s.vol.cwdCluster
  some : path ≠ []
  stays : Fat.rises (Fat.pathParts path.length path) = false

/-- A path on drive C is handed to the FAT driver, in one of the states only or in both with different
current directories. -/
def Misdirected (s t : State) : Prop :=
  s.drive ≠ t.drive ∨ s.drive = .d ∧ s.vol.mounted = true ∧ t.vol.cwdCluster ≠ s.vol.cwdCluster

/-- The call falls back on a current drive or directory that is not the same in the two states. -/
def Call.FallsBack (s t : State) : Call → Prop
  | .mkdir path | .createFile path =>
    namesC path ∧ Misdirected s t ∨ namesD path ∧ Relative s t ((path.drop 2).dropWhile isSeparator)
  | .write path buf =>
    namesC path ∧ (∃ fuel, vfsLookup s fuel path = some none) ∧ Misdirected s t ∨
      namesD path ∧ buf.length ≤ 512 * 64 ∧ Relative s t ((path.drop 2).dropWhile isSeparator)
  | .read path _ | .unlink path | .chdir path => namesD path ∧ Relative s t ((path.drop 2).dropWhile isSeparator)

theorem sameTurn_or_misdirected (s t : State) : SameTurn s t ∨ Misdirected s t := by
  unfold SameTurn Misdirected SameStart
  cases s.drive <;> cases t.drive <;> cases s.vol.mounted <;> simp
  exact eq_or_ne _ _

theorem sameFile_or_relative (onD : namesD path) :
    SameFile s t path ∨ Relative s t ((path.drop 2).dropWhile isSeparator) := by
  unfold SameFile SameStart
  rw [parseDrive_namesD onD]
  by_cases same : (s.vol.mounted = false ∨ t.vol.cwdCluster = s.vol.cwdCluster) ∨ (path.drop 2).dropWhile isSeparator = [] ∨
      Fat.rises (Fat.pathParts ((path.drop 2).dropWhile isSeparator).length ((path.drop 2).dropWhile isSeparator)) = true
  · exact .inl same
  · simp only [not_or, Bool.not_eq_false, Bool.not_eq_true] at same
    exact .inr ⟨same.1.1, same.1.2, same.2.1, same.2.2⟩

/-- Only a call that falls back on what differs can be told apart. -/
theorem Call.independent_or_fallsBack (s t : State) (call : Call) : call.Independent s t ∨ call.FallsBack s t := by
  have onC (path : List UInt8) : (namesC path → SameTurn s t) ∨ namesC path ∧ Misdirected s t := by
    rcases sameTurn_or_misdirected s t with same | apart
    · exact .inl fun _ => same
    · by_cases named : namesC path = true
      · exact .inr ⟨named, apart⟩
      · exact .inl fun is => absurd is named
  have onD (path : List UInt8) : (namesD path → SameFile s t path) ∨
      namesD path ∧ Relative s t ((path.drop 2).dropWhile isSeparator) := by
    by_cases named : namesD path = true
    · rcases sameFile_or_relative named with same | apart
      · exact .inl fun _ => same
      · exact .inr ⟨named, apart⟩
    · exact .inl fun is => absurd is named
  cases call with
  | mkdir path | createFile path =>
    rcases onC path with c | c
    · exact (onD path).imp (⟨c, ·⟩) .inr
    · exact .inr (.inl c)
  | read path _ | unlink path | chdir path => exact onD path
  | write path buf =>
    have c : (namesC path → SameTurn s t ∨ ∀ fuel, vfsLookup s fuel path ≠ some none) ∨
        namesC path ∧ (∃ fuel, vfsLookup s fuel path = some none) ∧ Misdirected s t := by
      rcases onC path with same | ⟨named, apart⟩
      · exact .inl fun is => .inl (same is)
      · by_cases missing : ∃ fuel, vfsLookup s fuel path = some none
        · exact .inr ⟨named, missing, apart⟩
        · exact .inl fun _ => .inr fun fuel is => missing ⟨fuel, is⟩
    rcases c with c | c
    · by_cases long : 512 * 64 < buf.length
      · exact .inl ⟨c, fun _ => .inr long⟩
      · rcases onD path with same | apart
        · exact .inl ⟨c, fun is => .inl (same is)⟩
        · exact .inr (.inr ⟨apart.1, Nat.not_lt.mp long, apart.2⟩)
    · exact .inr (.inl c)

section
variable (alike : Alike s t)
include alike

theorem vfsLookup_alike (onC : namesC path) : vfsLookup t fuel path = vfsLookup s fuel path := by
  rw [vfsLookup_namesC onC, vfsLookup_namesC onC, alike.ram]

omit alike in
theorem SameStart.moved (same : SameStart s t) (alike : Alike s t) (path : List UInt8) :
    ∃ cwd text, t.vol = s.vol.moveTo cwd text ∧ Fat.Unseen s.vol cwd path := by
  obtain ⟨cwd, text, moved⟩ := alike.vol
  have unseen := same.unseen path
  rw [moved] at unseen
  exact ⟨cwd, text, moved, unseen⟩

theorem unseen_of_namesD (onD : namesD path)
    (same : namesD path → SameFile s t path) :
    ∃ cwd text, t.vol = s.vol.moveTo cwd text ∧ Fat.Unseen s.vol cwd ((path.drop 2).dropWhile isSeparator) := by
  have same := same onD
  unfold SameFile at same
  rw [parseDrive_namesD onD] at same
  rcases same with same | bare | up
  · exact same.moved alike _
  · obtain ⟨cwd, text, moved⟩ := alike.vol
    exact ⟨cwd, text, moved, .inr (.inl bare)⟩
  · obtain ⟨cwd, text, moved⟩ := alike.vol
    exact ⟨cwd, text, moved, .inr (.inr (.inr up))⟩

theorem vfsRead_agree (absolute : Absolute path) {maxlen : Nat}
    (same : (Call.read path maxlen).Independent s t) :
    Agree (vfsRead fuel path maxlen s) (vfsRead fuel path maxlen t) := by
  rcases absolute.1 with onC | onD
  · simp only [vfsRead, parseDrive_namesC onC, onC, vfsLookup_namesC onC, alike.ram, reduceCtorEq, if_false, and_false]
    refine Agree.bind_value fun found => ?_
    cases found with
    | none => exact .same _ alike
    | some n =>
      dsimp only
      split
      · exact .same _ alike
      · unfold Ramfs.buffer
        exact .same _ alike
  · obtain ⟨cwd, text, moved, unseen⟩ := unseen_of_namesD alike onD same
    simp only [vfsRead, parseDrive_namesD onD, if_true, moved]
    exact onFat_agree alike (Fat.fatReadFile_unseen unseen maxlen)

theorem vfsUnlink_agree (absolute : Absolute path) (same : (Call.unlink path).Independent s t) :
    Agree (vfsUnlink fuel path s) (vfsUnlink fuel path t) := by
  rcases absolute.1 with onC | onD
  · simp only [vfsUnlink, parseDrive_namesC onC, onC, vfsLookup_namesC onC, alike.ram, reduceCtorEq, if_false, and_false]
    refine Agree.bind_value fun found => ?_
    cases found with
    | none => exact .same _ alike
    | some n =>
      dsimp only
      split
      · exact .same _ alike
      · split
        · exact .same _ alike
        · exact Agree.bind_value fun nodes => .same _ ⟨rfl, alike.medium, alike.vol⟩
  · obtain ⟨cwd, text, moved, unseen⟩ := unseen_of_namesD alike onD same
    simp only [vfsUnlink, parseDrive_namesD onD, if_true, moved]
    exact onFat_agree alike (Fat.fatUnlink_unseen unseen)

theorem enter_agree (found : Option Nat) : Agree (some (enter s found)) (some (enter t found)) := by
  unfold enter
  cases found with
  | none => exact .same _ alike
  | some n =>
    dsimp only
    rw [alike.ram]
    split
    · exact .same _ alike
    · exact .same _ ⟨rfl, alike.medium, alike.vol⟩

omit alike in
theorem onFatChdir_failed {after : State} (ran : onFatChdir s fuel path = some (false, after)) : after.vol = s.vol :=
  Fat.FatCall.vol_eq (onFatChdir_run ran) (.inl rfl)

theorem chdirD_agree (unseen : Fat.Unseen s.vol t.vol.cwdCluster path) :
    Agree (chdirD fuel path s) (chdirD fuel path t) := by
  have first : Agree (onFatChdir s fuel (if path = [] then [0x2F] else path))
      (onFatChdir t fuel (if path = [] then [0x2F] else path)) := by
    refine onFatChdir_agree alike ?_
    split
    · exact .inr (.inr (.inl rfl))
    · exact unseen
  unfold chdirD
  rcases first.cases with ⟨one, other⟩ | ⟨ok, u, w, one, other, after⟩
  · rw [one, other]
    exact Option.Rel.none
  rw [one, other]
  cases ok with
  | true => exact .same _ ⟨after.ram, after.medium, after.vol⟩
  | false =>
    have second : Agree (onFatChdir u fuel path) (onFatChdir w fuel path) := by
      refine onFatChdir_agree after ?_
      rw [onFatChdir_failed one, onFatChdir_failed other]
      exact unseen
    refine second.bind fun ok x y last => ?_
    cases ok with
    | true => exact .same _ ⟨last.ram, last.medium, last.vol⟩
    | false => exact .same _ last

theorem vfsChdir_agree (absolute : Absolute path) (same : (Call.chdir path).Independent s t) :
    Agree (vfsChdir fuel path s) (vfsChdir fuel path t) := by
  rcases absolute.1 with onC | onD
  · have notD : namesD path = false := by
      cases onD : namesD path with
      | false => rfl
      | true => exact absurd onC (by simp [namesC_of_namesD onD])
    simp only [vfsChdir, parseDrive_namesC onC, notD, onC, alike.ram, reduceCtorEq, Bool.false_eq_true, or_self,
      if_false, if_true]
    exact Agree.bind_value fun found => enter_agree alike found
  · obtain ⟨cwd, text, moved, unseen⟩ := unseen_of_namesD alike onD same
    simp only [vfsChdir, parseDrive_namesD onD, true_or, if_true]
    exact chdirD_agree alike (by rw [moved]; exact unseen)

omit alike in
theorem lastSeparator_ge {path : List UInt8} {index : Nat} {char : UInt8} (at_ : path[index]? = some char)
    (separates : isSeparator char) : ∃ last, lastSeparator path = some last ∧ index ≤ last := by
  obtain ⟨inside, rfl⟩ := List.getElem?_eq_some_iff.mp at_
  have mirrored : path.length - 1 - index < path.reverse.length := by
    rw [List.length_reverse]
    omega
  have there : path.reverse[path.length - 1 - index] = path[index] := by
    rw [List.getElem_reverse]
    congr 1
    omega
  have first : path.reverse.findIdx isSeparator ≤ path.length - 1 - index := by
    by_contra later
    exact absurd (there ▸ separates) (by simpa using List.not_of_lt_findIdx (Nat.not_le.mp later))
  refine ⟨path.length - 1 - path.reverse.findIdx isSeparator, ?_, by omega⟩
  unfold lastSeparator
  rw [List.findIdx?_eq_some_iff_findIdx_eq.mpr ⟨Nat.lt_of_le_of_lt first mirrored, rfl⟩]
  rfl

omit alike in
theorem splitParent_namesC (onC : namesC path) (absolute : Absolute path) : namesC (splitParent path).1 := by
  obtain ⟨_, separated⟩ := absolute
  match path, onC, separated with
  | first :: second :: third :: rest, onC, separated =>
    have short : strcpy (first :: second :: third :: rest) pathMax = first :: second :: third :: rest.take 252 := by
      simp [strcpy, pathMax]
    obtain ⟨last, found, low⟩ :=
      @lastSeparator_ge (first :: second :: third :: rest.take 252) 2 third rfl (by simpa using separated)
    obtain ⟨more, rfl⟩ := Nat.exists_eq_add_of_le low
    unfold splitParent
    simp only [short, found]
    simpa [strcpy, pathMax, namesC, Nat.add_comm 2] using onC

theorem addNode_alike (onC : namesC path) (absolute : Absolute path) (type : NodeType) :
    addNode t fuel path type = addNode s fuel path type := by
  have parentOnC := splitParent_namesC onC absolute
  unfold addNode allocIn
  simp only [ne_eq, not_nil_of_namesC parentOnC, not_false_eq_true, if_true, vfsLookup_alike alike parentOnC, alike.ram]

theorem vfsMkdir_agree (absolute : Absolute path) (same : (Call.mkdir path).Independent s t) :
    Agree (vfsMkdir fuel path s) (vfsMkdir fuel path t) := by
  rcases absolute.1 with onC | onD
  · have notD : ¬namesD path = true := fun onD => by simp [namesC_of_namesD onD] at onC
    rcases same.1 onC with ⟨here, there⟩ | ⟨here, there, start⟩
    · simp only [vfsMkdir, parseDrive_namesC onC, here, there, reduceCtorEq, or_self, if_false,
        addNode_alike alike onC absolute]
      refine Agree.bind_value fun made => ?_
      cases made with
      | none => exact .same _ alike
      | some made => exact .same _ ⟨rfl, alike.medium, alike.vol⟩
    · obtain ⟨cwd, text, moved, unseen⟩ := start.moved alike path
      simp only [vfsMkdir, here, there, or_true, if_true, notD, moved]
      exact onFat_agree alike (Fat.fatMkdir_unseen unseen)
  · obtain ⟨cwd, text, moved, unseen⟩ := unseen_of_namesD alike onD same.2
    simp only [vfsMkdir, parseDrive_namesD onD, onD, true_or, if_true, moved]
    exact onFat_agree alike (Fat.fatMkdir_unseen unseen)

theorem vfsCreateFile_agree (absolute : Absolute path)
    (same : (Call.createFile path).Independent s t) : Agree (vfsCreateFile fuel path s) (vfsCreateFile fuel path t) := by
  rcases absolute.1 with onC | onD
  · rcases same.1 onC with ⟨here, there⟩ | ⟨here, there, start⟩
    · simp only [vfsCreateFile, parseDrive_namesC onC, here, there, reduceCtorEq, or_self, if_false,
        addNode_alike alike onC absolute]
      refine Agree.bind_value fun made => ?_
      cases made with
      | none => exact .same _ alike
      | some made => exact .same _ ⟨rfl, alike.medium, alike.vol⟩
    · obtain ⟨cwd, text, moved, unseen⟩ := start.moved alike path
      simp only [vfsCreateFile, parseDrive_namesC onC, reduceCtorEq, here, there, or_true, if_true, if_false, moved]
      exact (onFat_agree alike (Fat.fatWriteFile_unseen unseen [])).bind fun wrote u w after => .same _ after
  · obtain ⟨cwd, text, moved, unseen⟩ := unseen_of_namesD alike onD same.2
    simp only [vfsCreateFile, parseDrive_namesD onD, true_or, if_true, moved]
    exact (onFat_agree alike (Fat.fatWriteFile_unseen unseen [])).bind fun wrote u w after => .same _ after

theorem storeAt_agree (found : Option Nat) (buf : List UInt8) :
    Agree (some (storeAt s found buf)) (some (storeAt t found buf)) := by
  unfold storeAt
  cases found with
  | none => exact .same _ alike
  | some n =>
    dsimp only
    rw [alike.ram]
    exact .same _ ⟨rfl, alike.medium, alike.vol⟩

theorem vfsWrite_agree (absolute : Absolute path) {buf : List UInt8}
    (same : (Call.write path buf).Independent s t) : Agree (vfsWrite fuel path buf s) (vfsWrite fuel path buf t) := by
  rcases absolute.1 with onC | onD
  · simp only [vfsWrite, parseDrive_namesC onC, onC, vfsLookup_alike alike onC, reduceCtorEq, if_false, and_false]
    cases looked : vfsLookup s fuel path with
    | none => exact Option.Rel.none
    | some found =>
      cases found with
      | some n => exact storeAt_agree alike (some n) buf
      | none =>
        have turn := (same.1 onC).resolve_right fun found => found fuel looked
        have created : Agree (vfsCreateFile fuel path s) (vfsCreateFile fuel path t) :=
          vfsCreateFile_agree alike absolute ⟨fun _ => turn, fun onD => absurd onC (by simp [namesC_of_namesD onD])⟩
        refine created.bind fun made u w after => ?_
        cases made with
        | false => exact .same _ after
        | true =>
          simp only [if_true, vfsLookup_alike after onC]
          exact Agree.bind_value fun found => storeAt_agree after found buf
  · simp only [vfsWrite, parseDrive_namesD onD, if_true]
    refine onFat_agree alike ?_
    rcases same.2 onD with start | long
    · obtain ⟨cwd, text, moved, unseen⟩ := unseen_of_namesD alike onD fun _ => start
      rw [moved]
      exact Fat.fatWriteFile_unseen unseen buf
    · -- Too much data is refused before the path is looked at.
      unfold Fat.fatWriteFile
      rw [if_neg fun checks => Nat.not_lt.mpr checks.2.2 long, if_neg fun checks => Nat.not_lt.mpr checks.2.2 long]

end

inductive Request where
  | lookup (path : List UInt8)
  | call (call : Call)

inductive Answer where
  | node (found : Option Nat)
  | done (ok : Bool)
  | wrote (count : Option Nat)
  | bytes (data : Option (List UInt8))
deriving DecidableEq

def Call.subject : Call → List UInt8
  | .mkdir path | .createFile path | .write path _ | .read path _ | .unlink path | .chdir path => path

def Request.subject : Request → List UInt8
  | lookup path => path
  | call made => made.subject

def Request.run (fuel : Nat) (state : State) : Request → Option (Answer × State)
  | lookup path => (vfsLookup state fuel path).map fun found => (.node found, state)
  | call (.mkdir path) => (vfsMkdir fuel path state).map fun result => (.done result.1, result.2)
  | call (.createFile path) => (vfsCreateFile fuel path state).map fun result => (.done result.1, result.2)
  | call (.write path buf) => (vfsWrite fuel path buf state).map fun result => (.wrote result.1, result.2)
  | call (.read path maxlen) => (vfsRead fuel path maxlen state).map fun result => (.bytes result.1, result.2)
  | call (.unlink path) => (vfsUnlink fuel path state).map fun result => (.done result.1, result.2)
  | call (.chdir path) => (vfsChdir fuel path state).map fun result => (.done result.1, result.2)

/-- A lookup never depends on the current drive and directories. -/
def Request.Independent (s t : State) : Request → Prop
  | lookup _ => True
  | call made => made.Independent s t

theorem vfsLookup_agree (alike : Alike s t) (absolute : Absolute path) :
    vfsLookup t fuel path = vfsLookup s fuel path := by
  rcases absolute.1 with onC | onD
  · exact vfsLookup_alike alike onC
  · rw [vfsLookup_namesD onD, vfsLookup_namesD onD]

theorem Request.agrees {request : Request} (alike : Alike s t) (absolute : Absolute request.subject)
    (independent : request.Independent s t) (fuel : Nat) : Agree (request.run fuel s) (request.run fuel t) := by
  cases request with
  | lookup path =>
    have same : vfsLookup t fuel path = vfsLookup s fuel path := vfsLookup_agree alike absolute
    simp only [Request.run, same]
    cases vfsLookup s fuel path with
    | none => exact Option.Rel.none
    | some found => exact .same _ alike
  | call call =>
    cases call with
    | mkdir path => exact (vfsMkdir_agree alike absolute independent).map
    | createFile path => exact (vfsCreateFile_agree alike absolute independent).map
    | write path buf => exact (vfsWrite_agree alike absolute independent).map
    | read path maxlen => exact (vfsRead_agree alike absolute independent).map
    | unlink path => exact (vfsUnlink_agree alike absolute independent).map
    | chdir path => exact (vfsChdir_agree alike absolute independent).map

/-- An absolute path has one meaning in states that are alike, unless the operation falls back on a
current drive or directory that the states do not share. -/
theorem absolute_path_agrees {request : Request} (alike : Alike s t) (absolute : Absolute request.subject)
    (direct : ∀ call, request = .call call → ¬call.FallsBack s t) (fuel : Nat) :
    Agree (request.run fuel s) (request.run fuel t) := by
  cases request with
  | lookup path => exact Request.agrees alike absolute trivial fuel
  | call call =>
    have independent := (call.independent_or_fallsBack s t).resolve_right (direct call rfl)
    exact @Request.agrees _ _ (.call call) alike absolute independent fuel

/-- The parent of the current directory of drive D is its root, so `D:/../A` is one file. -/
theorem absolute_path_agrees_on_read : Absolute (text "D:/../A") ∧
    Agree ((Request.call (.read (text "D:/../A") 8)).run 129 emptyState)
      ((Request.call (.read (text "D:/../A") 8)).run 129 { emptyState with vol := emptyState.vol.moveTo 5 Fat.blank }) := by
  have absolute : Absolute (text "D:/../A") := by decide
  have alike : Alike emptyState { emptyState with vol := emptyState.vol.moveTo 5 Fat.blank } :=
    ⟨rfl, rfl, 5, Fat.blank, rfl⟩
  refine ⟨absolute, @absolute_path_agrees _ _ (.call (.read (text "D:/../A") 8)) alike absolute
    (fun call is fallsBack => ?_) 129⟩
  cases is
  exact absurd fallsBack.2.stays (by decide +kernel)

/-- With drive D current the path goes to the FAT driver, which finds no directory `C:`. -/
theorem mkdir_depends_on_drive : Alike emptyState { emptyState with drive := .d } ∧ Absolute (text "C:/a") ∧
    ¬Agree ((Request.call (.mkdir (text "C:/a"))).run 200 emptyState)
      ((Request.call (.mkdir (text "C:/a"))).run 200 { emptyState with drive := .d }) := by
  refine ⟨⟨rfl, rfl, _, _, rfl⟩, by decide, fun agree => ?_⟩
  have facts : ((Request.call (.mkdir (text "C:/a"))).run 200 emptyState).map (fun result => result.2.ram.nodeCount) = some 2 ∧
      ((Request.call (.mkdir (text "C:/a"))).run 200 { emptyState with drive := .d }).map
        (fun result => result.2.ram.nodeCount) = some 1 := by decide +kernel
  rcases agree.cases with ⟨one, _⟩ | ⟨answer, s, t, one, other, alike⟩
  · rw [one] at facts
    cases facts.1
  · rw [one, other] at facts
    have differ := facts.2
    simp only [Option.map_some, alike.ram] at differ facts
    exact absurd (facts.1.symm.trans differ) (by decide)

end GWKernel.Vfs
