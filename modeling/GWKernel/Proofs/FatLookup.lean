import GWKernel.Fat

/-! Looking things up on an arbitrary disk. Chains may be cyclic, so what a scan comes to is a
relation on the disk. -/

namespace GWKernel.Fat
open Lib

structure WritesIn (allowed : Nat → Prop) (before after : Medium) : Prop where
  logged : ∃ lbas, after.written = lbas ++ before.written ∧ ∀ lba ∈ lbas, allowed lba
  kept : ∀ lba, ¬allowed lba → after.disk lba = before.disk lba

variable {allowed : Nat → Prop} {vol : Volume}

instance : IsPreorder Medium (WritesIn allowed) where
  refl _ := ⟨⟨[], rfl, fun _ none => nomatch none⟩, fun _ _ => rfl⟩
  trans _ _ _ first second := by
    obtain ⟨earlier, is, fine⟩ := first.logged
    obtain ⟨later, then_, too⟩ := second.logged
    refine ⟨⟨later ++ earlier, ?_, fun lba member => ?_⟩, fun lba outside => ?_⟩
    · rw [then_, is, List.append_assoc]
    · rcases List.mem_append.mp member with new | old
      · exact too lba new
      · exact fine lba old
    · exact (second.kept lba outside).trans (first.kept lba outside)

theorem WritesIn.nothing {before after : Medium} (moved : WritesIn (fun _ => False) before after) :
    after.disk = before.disk ∧ after.written = before.written := by
  obtain ⟨lbas, is, none⟩ := moved.logged
  rw [List.eq_nil_iff_forall_not_mem.mpr none] at is
  exact ⟨funext fun lba => moved.kept lba not_false, is⟩

theorem readAbs_moves (lba : Nat) : Moves (WritesIn allowed) (readAbs vol lba) :=
  .branch (.bind (.modify fun _ => ⟨⟨[], rfl, fun _ none => nomatch none⟩, fun _ _ => rfl⟩) fun _ => .pure _) (.pure _)

theorem writeAbs_moves {lba : Nat} (fine : allowed lba) : Moves (WritesIn allowed) (writeAbs vol lba) := by
  refine .branch (.bind (.modify fun medium => ⟨⟨[lba], rfl, ?_⟩, fun other outside => ?_⟩) fun _ => .pure _) (.pure _)
  · intro other member
    rw [List.mem_singleton.mp member]
    exact fine
  · exact if_neg fun (same : other = lba) => outside (same ▸ fine)

theorem editSector_moves (edit : Mem → Mem) : Moves (WritesIn allowed) (editSector edit) :=
  .modify fun _ => ⟨⟨[], rfl, fun _ none => nomatch none⟩, fun _ _ => rfl⟩

theorem writeEntry_moves {slot : Nat × Nat} (fine : allowed slot.1) (name : List UInt8) (attr : UInt8) (cl size : Nat) :
    Moves (WritesIn allowed) (writeEntry vol slot name attr cl size) :=
  .bind (readAbs_moves _) fun _ => .branch (.bind (editSector_moves _) fun _ => writeAbs_moves fine) (.pure _)

theorem deleteEntry_moves {slot : Nat × Nat} (fine : allowed slot.1) :
    Moves (WritesIn allowed) (deleteEntry vol slot) :=
  .bind (readAbs_moves _) fun _ => .branch (.bind (editSector_moves _) fun _ => writeAbs_moves fine) (.pure _)

variable {medium : Medium} {enough : Prop}

def Same (before after : Medium) : Prop := after.disk = before.disk ∧ after.written = before.written

theorem Same.refl (medium : Medium) : Same medium medium := ⟨rfl, rfl⟩

theorem Same.trans {first second third : Medium} (left : Same first second) (right : Same second third) :
    Same first third :=
  ⟨right.1.trans left.1, right.2.trans left.2⟩

theorem Same.writes {allowed : Nat → Prop} {before after : Medium} (same : Same before after) :
    WritesIn allowed before after :=
  ⟨⟨[], same.2, fun _ none => nomatch none⟩, fun lba _ => by rw [same.1]⟩

theorem Same.then_writes {allowed : Nat → Prop} {before middle after : Medium} (same : Same before middle)
    (moved : WritesIn allowed middle after) : WritesIn allowed before after :=
  IsTrans.trans _ _ _ same.writes moved

def fatEntry (vol : Volume) (disk : Nat → Mem) (cl : Nat) : Nat :=
  if vol.readable (fatSector vol cl) then (disk (fatSector vol cl)).le (fatOffset vol cl) 4 % 2 ^ 28 else 0x0FFFFFF7

theorem readAbs_tells (lba : Nat) : Ends enough (readAbs vol lba) medium fun ok final =>
    ok = vol.readable lba ∧ Same medium final ∧ (vol.readable lba = true → final.sector = medium.disk lba) := by
  unfold readAbs
  refine Ends.branch (fun readable => ?_) fun unreadable => ?_
  · exact Ends.modify_then (Ends.pure ⟨readable.symm, Same.refl _, fun _ => rfl⟩)
  · have no : vol.readable lba = false := by simpa using unreadable
    exact Ends.pure ⟨no.symm, Same.refl _, fun yes => absurd yes unreadable⟩

theorem fatGet_tells (cl : Nat) : Ends enough (fatGet vol cl) medium fun value final =>
    value = fatEntry vol medium.disk cl ∧ Same medium final := by
  refine (readAbs_tells _).bind fun ok middle ⟨known, same, read⟩ => ?_
  subst known
  refine Ends.branch (fun readable => Ends.get_then (Ends.pure ⟨?_, same⟩)) fun unreadable => Ends.pure ⟨?_, same⟩
  · rw [fatEntry, if_pos readable, read readable]
  · rw [fatEntry, if_neg unreadable]

section Scanning

variable {α ρ : Type} (vol : Volume) (disk : Nat → Mem) (visit : Nat → Nat → Mem → α → Except ρ α) (failed ended : α → ρ)

def scanned (cl : Nat) : List Nat → α → Except ρ α
  | [], acc => .ok acc
  | s :: rest, acc =>
    let lba := u32 (clusterToLba vol cl + s)
    if vol.readable lba then
      match scanSector visit lba (disk lba) acc with
      | .error result => .error result
      | .ok acc => scanned cl rest acc
    else .error (failed acc)

/-- The scan of a directory ends: its chain leaves the FAT, or a cluster of it stops the scan. -/
inductive Scans : Nat → α → ρ → Prop where
  | leaves {cl : Nat} {acc : α} (outside : ¬InChain cl) : Scans cl acc (ended acc)
  | stops {cl : Nat} {acc : α} {result : ρ} (inside : InChain cl)
      (stop : scanned vol disk visit failed cl (List.range vol.secPerCluster) acc = .error result) : Scans cl acc result
  | follows {cl : Nat} {acc next : α} {result : ρ} (inside : InChain cl)
      (passed : scanned vol disk visit failed cl (List.range vol.secPerCluster) acc = .ok next)
      (rest : Scans (fatEntry vol disk cl) next result) : Scans cl acc result

variable {vol disk visit failed ended}

theorem Scans.unique {cl : Nat} {acc : α} {one other : ρ} (left : Scans vol disk visit failed ended cl acc one)
    (right : Scans vol disk visit failed ended cl acc other) : one = other := by
  induction left with
  | leaves outside =>
    cases right with
    | leaves _ => rfl
    | stops inside _ => exact absurd inside outside
    | follows inside _ _ => exact absurd inside outside
  | stops inside stop =>
    cases right with
    | leaves outside => exact absurd inside outside
    | stops _ again => exact Except.error.inj (stop.symm.trans again)
    | follows _ passed _ => cases stop.symm.trans passed
  | follows inside passed _ ih =>
    cases right with
    | leaves outside => exact absurd inside outside
    | stops _ stop => cases stop.symm.trans passed
    | follows _ again rest =>
      cases passed.symm.trans again
      exact ih rest

theorem scanSectors_tells (cl : Nat) (sectors : List Nat) (acc : α) :
    Ends enough (scanSectors vol visit failed cl sectors acc) medium fun result final =>
      result = scanned vol medium.disk visit failed cl sectors acc ∧ Same medium final := by
  induction sectors generalizing acc medium with
  | nil => exact Ends.pure ⟨rfl, Same.refl _⟩
  | cons s rest ih =>
    refine (readAbs_tells _).bind fun ok middle ⟨known, same, read⟩ => ?_
    subst known
    refine Ends.branch (fun readable => Ends.get_then ?_) fun unreadable => Ends.pure ⟨?_, same⟩
    · have content := read readable
      simp only [scanned, readable, if_true, ← content]
      cases scanSector visit (u32 (clusterToLba vol cl + s)) middle.sector acc with
      | error result => exact Ends.pure ⟨rfl, same⟩
      | ok acc => exact (ih acc).imp fun _ _ told => ⟨by rw [told.1, same.1], same.trans told.2⟩
    · simp [scanned, unreadable]

theorem scanChain_tells (fuel cl : Nat) (acc : α) :
    Ends False (scanChain vol visit failed ended fuel cl acc) medium fun result final =>
      Scans vol medium.disk visit failed ended cl acc result ∧ Same medium final := by
  induction fuel generalizing cl acc medium with
  | zero => exact Ends.exhausted id
  | succ fuel ih =>
    refine Ends.branch (fun inside => ?_) fun outside => Ends.pure ⟨.leaves outside, Same.refl _⟩
    refine (scanSectors_tells cl _ acc).bind fun result middle ⟨is, same⟩ => ?_
    cases result with
    | error result => exact Ends.pure ⟨.stops inside is.symm, same⟩
    | ok next =>
      refine (fatGet_tells cl).bind fun link after ⟨linked, again⟩ => ?_
      refine (ih link next).imp fun result final ⟨scans, still⟩ => ⟨.follows inside is.symm ?_, ?_⟩
      · rw [again.1, same.1, linked, same.1] at scans
        exact scans
      · exact (same.trans again).trans still

end Scanning

section Lookup

variable (vol : Volume) (disk : Nat → Mem)

abbrev Finds (dirCl : Nat) (name : List UInt8) (result : Option Found) : Prop :=
  Scans vol disk (findVisit name) (fun _ => none) (fun _ => none) dirCl () result

inductive Walks : Nat → List (List UInt8) → Option (Nat × List UInt8) → Prop where
  | nothing (cl : Nat) : Walks cl [] (some (cl, []))
  | leaf (cl : Nat) (part : List UInt8) : Walks cl [part] (some (cl, part))
  | here {cl : Nat} {next : List UInt8} {rest : List (List UInt8)} {result : Option (Nat × List UInt8)}
      (walks : Walks cl (next :: rest) result) : Walks cl ([0x2E] :: next :: rest) result
  | up {cl : Nat} {next : List UInt8} {rest : List (List UInt8)} {result : Option (Nat × List UInt8)}
      (walks : Walks vol.rootCluster (next :: rest) result) : Walks cl ([0x2E, 0x2E] :: next :: rest) result
  | down {cl : Nat} {part next : List UInt8} {rest : List (List UInt8)} {found : Found}
      {result : Option (Nat × List UInt8)} (named : part ≠ [0x2E] ∧ part ≠ [0x2E, 0x2E])
      (finds : Finds vol disk cl part (some found)) (isDir : found.isDir = true)
      (walks : Walks found.cluster (next :: rest) result) : Walks cl (part :: next :: rest) result
  | blocked {cl : Nat} {part next : List UInt8} {rest : List (List UInt8)} {result : Option Found}
      (named : part ≠ [0x2E] ∧ part ≠ [0x2E, 0x2E]) (finds : Finds vol disk cl part result)
      (noDir : ∀ found, result = some found → found.isDir = false) : Walks cl (part :: next :: rest) none

abbrev Resolved (path : List UInt8) (result : Option (Nat × List UInt8)) : Prop :=
  Walks vol disk (startCluster vol path) (pathParts path.length path) result

/-- The directory, the name and the entry that the calls which change the disk begin with. -/
inductive Located (path : List UInt8) : Nat → List UInt8 → Option Found → Prop where
  | mk {parent : Nat} {name : List UInt8} {found : Option Found} (resolved : Resolved vol disk path (some (parent, name)))
      (named : name ≠ []) (finds : Finds vol disk parent name found) : Located path parent name found

variable {vol disk}

theorem dirFind_tells (fuel dirCl : Nat) (name : List UInt8) :
    Ends False (dirFind vol fuel dirCl name) medium fun result final =>
      Finds vol medium.disk dirCl name result ∧ Same medium final :=
  scanChain_tells fuel dirCl ()

theorem walkParts_tells (fuel cl : Nat) (parts : List (List UInt8)) :
    Ends False (walkParts vol fuel cl parts) medium fun result final =>
      Walks vol medium.disk cl parts result ∧ Same medium final := by
  induction parts generalizing cl medium with
  | nil => exact Ends.pure ⟨.nothing cl, Same.refl _⟩
  | cons part rest ih =>
    cases rest with
    | nil => exact Ends.pure ⟨.leaf cl part, Same.refl _⟩
    | cons next rest =>
      refine Ends.branch (fun dot => ?_) fun notDot => Ends.branch (fun dots => ?_) fun notDots => ?_
      · subst dot
        exact (ih cl).imp fun _ _ ⟨walks, same⟩ => ⟨.here walks, same⟩
      · subst dots
        exact (ih vol.rootCluster).imp fun _ _ ⟨walks, same⟩ => ⟨.up walks, same⟩
      · refine (dirFind_tells fuel cl part).bind fun result middle ⟨finds, same⟩ => ?_
        cases result with
        | none => exact Ends.pure ⟨.blocked ⟨notDot, notDots⟩ finds (fun _ no => nomatch no), same⟩
        | some found =>
          refine Ends.branch (fun isDir => ?_) fun noDir => Ends.pure ⟨.blocked ⟨notDot, notDots⟩ finds ?_, same⟩
          · refine (ih found.cluster).imp fun _ _ ⟨walks, again⟩ => ⟨?_, same.trans again⟩
            rw [same.1] at walks
            exact .down ⟨notDot, notDots⟩ finds isDir walks
          · rintro _ ⟨⟩
            simpa using noDir

theorem resolveParent_tells (fuel : Nat) (path : List UInt8) :
    Ends False (resolveParent vol fuel path) medium fun result final =>
      Resolved vol medium.disk path result ∧ Same medium final :=
  walkParts_tells fuel _ _

theorem locate_then {β : Type} {post : β → Medium → Prop} {fuel : Nat} {path : List UInt8} {refused : β}
    {rest : Nat → List UInt8 → Option Found → Io β} (refuse : ∀ final, Same medium final → post refused final)
    (next : ∀ parent name found final, Located vol medium.disk path parent name found → Same medium final →
      Ends False (rest parent name found) final post) :
    Ends False (do
      match ← resolveParent vol fuel path with
      | none => pure refused
      | some (parent, name) =>
        if name = [] then pure refused else dirFind vol fuel parent name >>= rest parent name) medium post := by
  refine (resolveParent_tells fuel path).bind fun result middle ⟨resolved, same⟩ => ?_
  cases result with
  | none => exact Ends.pure (refuse middle same)
  | some found =>
    obtain ⟨parent, name⟩ := found
    refine Ends.branch (fun _ => Ends.pure (refuse middle same)) fun named => ?_
    refine (dirFind_tells fuel parent name).bind fun result final ⟨finds, again⟩ => ?_
    rw [same.1] at finds
    exact next parent name result final ⟨resolved, named, finds⟩ (same.trans again)

end Lookup

variable {allowed : Nat → Prop}

theorem tells_moves {α : Type} {code : Io α} {told : Medium → α → Prop}
    (tells : ∀ medium, Ends False code medium fun value final => told medium value ∧ Same medium final) :
    Moves (WritesIn allowed) code :=
  fun medium value final ran => ((tells medium).2 value final ran).2.writes

theorem resolveFull_moves (fuel : Nat) (path : List UInt8) : Moves (WritesIn allowed) (resolveFull vol fuel path) := by
  refine .branch (.pure _) (.bind (tells_moves fun _ => resolveParent_tells fuel path) fun leaf => ?_)
  cases leaf with
  | none => exact .pure _
  | some leaf =>
    refine .branch (.pure _) (.bind (tells_moves fun _ => dirFind_tells _ _ _) fun found => ?_)
    cases found <;> exact .pure _

theorem fatChdir_tells (fuel : Nat) (path : List UInt8) :
    Ends False (fatChdir vol fuel path) medium fun result final =>
      Same medium final ∧ ∃ cwd text, result.2 = { vol with cwdCluster := cwd, cwdPath := text } := by
  have stays : ∃ cwd text, vol = { vol with cwdCluster := cwd, cwdPath := text } := ⟨vol.cwdCluster, vol.cwdPath, rfl⟩
  refine Ends.branch (fun _ => ?_) fun _ => Ends.pure ⟨Same.refl _, stays⟩
  refine ((@resolveFull_moves vol (fun _ => False) fuel path).ends medium).bind fun found final moved => ?_
  have same : Same medium final := moved.nothing
  split
  · refine Ends.branch (fun _ => Ends.pure ⟨same, _, _, rfl⟩) fun _ => ?_
    refine Ends.branch (fun _ => Ends.pure ⟨same, _, _, rfl⟩) fun _ => ?_
    exact Ends.branch (fun _ => Ends.pure ⟨same, _, vol.cwdPath, rfl⟩) fun _ => Ends.pure ⟨same, _, _, rfl⟩
  · exact Ends.pure ⟨same, stays⟩

theorem fatList_moves (fuel : Nat) (path : List UInt8) : Moves (WritesIn allowed) (fatList vol fuel path) := by
  refine .branch (.bind (resolveFull_moves _ _) fun found => ?_) (.pure _)
  split
  · exact .bind (tells_moves fun _ => scanChain_tells _ _ _) fun _ => .pure _
  · exact .pure _

theorem readSectors_moves (cl : Nat) (sectors : List Nat) (want : Nat) :
    Moves (WritesIn allowed) (readSectors vol cl sectors want) := by
  induction sectors generalizing want with
  | nil => exact .pure _
  | cons s rest ih =>
    refine .branch (.pure _) (.bind (readAbs_moves _) fun _ => .branch (.bind .get fun medium => ?_) (.pure _))
    refine .bind (ih _) fun more => ?_
    cases more <;> exact .pure _

theorem readClusters_moves (fuel cl want : Nat) : Moves (WritesIn allowed) (readClusters vol fuel cl want) := by
  induction fuel generalizing cl want with
  | zero => exact .exhausted
  | succ fuel ih =>
    refine .branch (.bind (readSectors_moves _ _ _) fun bytes => ?_) (.pure _)
    cases bytes with
    | none => exact .pure _
    | some bytes =>
      refine .bind (tells_moves fun _ => fatGet_tells cl) fun next => .bind (ih _ _) fun more => ?_
      cases more <;> exact .pure _

theorem fatReadFile_moves (fuel : Nat) (path : List UInt8) (maxlen : Nat) :
    Moves (WritesIn allowed) (fatReadFile vol fuel path maxlen) := by
  refine .branch (.bind (resolveFull_moves _ _) fun found => ?_) (.pure _)
  split
  · exact readClusters_moves _ _ _
  · exact .pure _

end GWKernel.Fat
