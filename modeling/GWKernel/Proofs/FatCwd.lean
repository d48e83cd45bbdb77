import GWKernel.Fat

/-! The driver looks at its current directory only where a relative path begins. -/

namespace GWKernel.Fat
open Lib

def Volume.moveTo (vol : Volume) (cwd : Nat) (text : Mem) : Volume := { vol with cwdCluster := cwd, cwdPath := text }

variable {vol : Volume} {cwd : Nat} {text : Mem}

theorem allocFrom_moveTo (candidates : List Nat) : allocFrom (vol.moveTo cwd text) candidates = allocFrom vol candidates := by
  induction candidates with
  | nil => rfl
  | cons c rest ih =>
    unfold allocFrom
    rw [ih]
    rfl

theorem fatFreeChain_moveTo (fuel cl : Nat) : fatFreeChain (vol.moveTo cwd text) fuel cl = fatFreeChain vol fuel cl := by
  induction fuel generalizing cl with
  | zero => rfl
  | succ fuel ih =>
    unfold fatFreeChain
    simp only [ih]
    rfl

section Scanning

variable {α ρ : Type} (visit : Nat → Nat → Mem → α → Except ρ α)

theorem scanSectors_moveTo (failed : α → ρ) (cl : Nat) (sectors : List Nat) (acc : α) :
    scanSectors (vol.moveTo cwd text) visit failed cl sectors acc = scanSectors vol visit failed cl sectors acc := by
  induction sectors generalizing acc with
  | nil => rfl
  | cons s rest ih =>
    unfold scanSectors
    simp only [ih]
    rfl

theorem scanChain_moveTo (failed ended : α → ρ) (fuel cl : Nat) (acc : α) :
    scanChain (vol.moveTo cwd text) visit failed ended fuel cl acc = scanChain vol visit failed ended fuel cl acc := by
  induction fuel generalizing cl acc with
  | zero => rfl
  | succ fuel ih =>
    unfold scanChain
    simp only [ih, scanSectors_moveTo]
    rfl

end Scanning

theorem dirFind_moveTo (fuel d : Nat) (name : List UInt8) :
    dirFind (vol.moveTo cwd text) fuel d name = dirFind vol fuel d name :=
  scanChain_moveTo _ _ _ _ _ _

theorem writeEach_moveTo (cl : Nat) (sectors : List Nat) :
    writeEach (vol.moveTo cwd text) cl sectors = writeEach vol cl sectors := by
  induction sectors with
  | nil => rfl
  | cons s rest ih =>
    unfold writeEach
    rw [ih]
    rfl

theorem fatAllocCluster_moveTo : fatAllocCluster (vol.moveTo cwd text) = fatAllocCluster vol := allocFrom_moveTo _

theorem dirAllocSlot_moveTo (fuel cur : Nat) : dirAllocSlot (vol.moveTo cwd text) fuel cur = dirAllocSlot vol fuel cur := by
  induction fuel generalizing cur with
  | zero => rfl
  | succ fuel ih =>
    unfold dirAllocSlot
    simp only [ih, scanSectors_moveTo, fatAllocCluster_moveTo, writeEach_moveTo]
    rfl

theorem walkParts_moveTo (fuel cl : Nat) (parts : List (List UInt8)) :
    walkParts (vol.moveTo cwd text) fuel cl parts = walkParts vol fuel cl parts := by
  induction parts generalizing cl with
  | nil => rfl
  | cons part rest ih =>
    cases rest with
    | nil => rfl
    | cons next rest =>
      unfold walkParts
      simp only [ih, dirFind_moveTo]
      rfl

theorem readSectors_moveTo (cl : Nat) (sectors : List Nat) (want : Nat) :
    readSectors (vol.moveTo cwd text) cl sectors want = readSectors vol cl sectors want := by
  induction sectors generalizing want with
  | nil => rfl
  | cons s rest ih =>
    unfold readSectors
    simp only [ih]
    rfl

theorem readClusters_moveTo (fuel cl want : Nat) :
    readClusters (vol.moveTo cwd text) fuel cl want = readClusters vol fuel cl want := by
  induction fuel generalizing cl want with
  | zero => rfl
  | succ fuel ih =>
    unfold readClusters
    simp only [ih, readSectors_moveTo]
    rfl

theorem zeroEach_moveTo (cl : Nat) (sectors : List Nat) :
    zeroEach (vol.moveTo cwd text) cl sectors = zeroEach vol cl sectors := by
  induction sectors with
  | nil => rfl
  | cons z rest ih =>
    unfold zeroEach
    rw [ih]
    rfl

theorem writeSectors_moveTo (cl : Nat) (sectors : List Nat) (data : List UInt8) :
    writeSectors (vol.moveTo cwd text) cl sectors data = writeSectors vol cl sectors data := by
  induction sectors generalizing data with
  | nil => rfl
  | cons s rest ih =>
    unfold writeSectors
    simp only [ih, zeroEach_moveTo]
    rfl

theorem writeClusters_moveTo (fuel first prev : Nat) (data : List UInt8) :
    writeClusters (vol.moveTo cwd text) fuel first prev data = writeClusters vol fuel first prev data := by
  induction fuel generalizing first prev data with
  | zero => rfl
  | succ fuel ih =>
    unfold writeClusters
    simp only [ih, fatAllocCluster_moveTo, writeSectors_moveTo]
    rfl

theorem writeContent_moveTo (fuel : Nat) (slot : Nat × Nat) (name data : List UInt8) :
    writeContent (vol.moveTo cwd text) fuel slot name data = writeContent vol fuel slot name data := by
  unfold writeContent
  rw [writeClusters_moveTo]
  rfl

theorem writeDirectory_moveTo (newCl parent : Nat) :
    writeDirectory (vol.moveTo cwd text) newCl parent = writeDirectory vol newCl parent := by
  unfold writeDirectory
  simp only [writeEach_moveTo]
  rfl

/-- The first component that is no single dot is `..`, with more behind it: the resolver turns to the
root directory before it looks anything up. -/
def rises : List (List UInt8) → Bool
  | part :: next :: rest => if part = [0x2E] then rises (next :: rest) else part = [0x2E, 0x2E]
  | _ => false

theorem walkParts_rises {fuel : Nat} {parts : List (List UInt8)} (up : rises parts = true) (cl other : Nat) :
    walkParts vol fuel cl parts = walkParts vol fuel other parts := by
  fun_induction rises parts with
  | case1 next rest ih =>
    unfold walkParts
    exact ih up
  | case2 part next rest notDot =>
    unfold walkParts
    rw [if_neg notDot, if_neg notDot, if_pos (by simpa using up), if_pos (by simpa using up)]
  | case3 => cases up

/-- The path begins in the same directory, or in the root before long. -/
def SameBeginning (vol : Volume) (cwd : Nat) (path : List UInt8) : Prop :=
  startCluster (vol.moveTo cwd blank) path = startCluster vol path ∨ rises (pathParts path.length path) = true

/-- The current directory has no part in a call: no volume, an empty path, or the same beginning. -/
def Unseen (vol : Volume) (cwd : Nat) (path : List UInt8) : Prop :=
  vol.mounted = false ∨ path = [] ∨ SameBeginning vol cwd path

section Paths

variable {fuel : Nat} {path : List UInt8}

theorem resolveParent_moveTo (begins : SameBeginning vol cwd path) :
    resolveParent (vol.moveTo cwd text) fuel path = resolveParent vol fuel path := by
  unfold resolveParent
  rw [walkParts_moveTo]
  rcases begins with begins | up
  · rw [show startCluster (vol.moveTo cwd text) path = _ from begins]
  · exact walkParts_rises up _ _

theorem resolveFull_moveTo (begins : SameBeginning vol cwd path) :
    resolveFull (vol.moveTo cwd text) fuel path = resolveFull vol fuel path := by
  unfold resolveFull
  simp only [resolveParent_moveTo begins, dirFind_moveTo]
  split
  next bare =>
    have begins : startCluster (vol.moveTo cwd text) path = startCluster vol path := by
      rcases begins with begins | up
      · exact begins
      · rcases bare with rfl | rfl | rfl
        · cases up
        · rfl
        · rfl
    rw [begins]
  next => rfl

variable (unseen : Unseen vol cwd path)
include unseen

theorem fatReadFile_unseen (maxlen : Nat) :
    fatReadFile (vol.moveTo cwd text) fuel path maxlen = fatReadFile vol fuel path maxlen := by
  rcases unseen with none | rfl | begins
  · simp [fatReadFile, Volume.moveTo, none]
  · simp [fatReadFile, resolveFull, Volume.moveTo]
  · unfold fatReadFile
    simp only [resolveFull_moveTo begins, readClusters_moveTo]
    rfl

theorem fatMkdir_unseen : fatMkdir (vol.moveTo cwd text) fuel path = fatMkdir vol fuel path := by
  rcases unseen with none | rfl | begins
  · simp [fatMkdir, Volume.moveTo, none]
  · simp [fatMkdir]
  · unfold fatMkdir
    simp only [resolveParent_moveTo begins, dirFind_moveTo, fatAllocCluster_moveTo, writeDirectory_moveTo,
      dirAllocSlot_moveTo]
    rfl

theorem fatWriteFile_unseen (data : List UInt8) :
    fatWriteFile (vol.moveTo cwd text) fuel path data = fatWriteFile vol fuel path data := by
  rcases unseen with none | rfl | begins
  · simp [fatWriteFile, Volume.moveTo, none]
  · simp [fatWriteFile]
  · unfold fatWriteFile
    simp only [resolveParent_moveTo begins, dirFind_moveTo, fatFreeChain_moveTo, dirAllocSlot_moveTo, writeContent_moveTo]
    rfl

theorem fatUnlink_unseen : fatUnlink (vol.moveTo cwd text) fuel path = fatUnlink vol fuel path := by
  rcases unseen with none | rfl | begins
  · simp [fatUnlink, Volume.moveTo, none]
  · simp [fatUnlink]
  · unfold fatUnlink dirEmpty
    simp only [resolveParent_moveTo begins, dirFind_moveTo, fatFreeChain_moveTo, scanChain_moveTo]
    rfl

theorem fatChdir_unseen (medium : Medium) :
    (fatChdir (vol.moveTo cwd text) fuel path medium).map (fun result => (result.1.1, result.1.2.moveTo 0 blank, result.2)) =
      (fatChdir vol fuel path medium).map fun result => (result.1.1, result.1.2.moveTo 0 blank, result.2) := by
  unfold fatChdir
  by_cases mounted : vol.mounted = true
  swap
  · rw [if_neg mounted, if_neg (show ¬(vol.moveTo cwd text).mounted = true from mounted)]
    rfl
  rw [if_pos mounted, if_pos (show (vol.moveTo cwd text).mounted = true from mounted)]
  rcases unseen with none | rfl | begins
  · exact absurd mounted (by simp [none])
  · rfl
  · rw [resolveFull_moveTo begins]
    simp only [bind, StateT.bind]
    cases resolveFull vol fuel path medium with
    | none => rfl
    | some outcome =>
      obtain ⟨found, final⟩ := outcome
      simp only [Option.bind_some]
      split
      · split
        · rfl
        · split
          · rfl
          · split <;> rfl
      · rfl

end Paths

end GWKernel.Fat
