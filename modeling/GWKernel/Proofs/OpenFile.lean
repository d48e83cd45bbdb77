import GWKernel.Proofs.CurrentDirectory
import GWKernel.Proofs.FatRoundTrip
import GWKernel.Syscall

/-! What `sys_open` does to a file that exists. `vfs_lookup` finds no file on drive D, so opening
one there truncates it. -/

namespace GWKernel.Fat
open Lib Option

variable {vol : Volume} {v w : View} {path other data : List UInt8} {pos : Pos} {cs ds : List Nat} {size : Nat}

theorem Wrote.alias (begins : ∀ path, ∃ owner, Owns vol v owner true (startCluster vol path)) (sane : Sane vol)
    (file : FileAt vol v path pos cs) (named : FileAt vol v other pos ds) (wrote : Wrote vol v path data (some size) w) :
    Wrote vol v other data (some size) w := by
  cases wrote with
  | written target prepared content =>
    obtain ⟨_, _, _, walk, named_, links, found⟩ := file.found
    obtain ⟨_, owns⟩ := walk.owns (begins path)
    obtain ⟨rfl, rfl, rfl⟩ := target.unique sane ⟨walk, named_, owns, links⟩
    cases prepared with
    | vacant missing _ =>
      rw [found] at missing
      cases missing
    | existing again isFile chain =>
      rw [found] at again
      cases again
      obtain ⟨d, leaf, ls, walk, isNamed, links, there⟩ := named.found
      obtain ⟨holder, owns⟩ := walk.owns (begins other)
      have same := (lookup_some there).2.2.trans (lookup_some found).2.2.symm
      have written := Wrote.written ⟨walk, isNamed, owns, links⟩ (.existing there isFile chain) content
      rw [newEntry, same] at written
      exact written

theorem Wrote.truncates {result : Option Nat} (begins : ∀ path, ∃ owner, Owns vol v owner true (startCluster vol path))
    (file : FileAt vol v path pos cs) (wrote : Wrote vol v path [] result w) : Wrote vol v path [] (some 0) w := by
  obtain ⟨parent, name, ps, walk, named, links, found⟩ := file.found
  obtain ⟨owner, owns⟩ := walk.owns (begins path)
  cases wrote with
  | refused _ occupied =>
    have isDir := occupied (Nat.zero_le _) ⟨walk, named, owns, links⟩ found
    rw [file.isFile] at isDir
    cases isDir
  | short _ _ few _ _ _ _ => exact absurd few (Nat.not_lt_zero _)
  | written target prepared content => exact .written target prepared content

theorem FileAt.unique {q : Pos} (sane : Sane vol) (file : FileAt vol v path pos cs) (again : FileAt vol v path q ds) :
    q = pos := by
  obtain ⟨_, _, _, walk, _, links, found⟩ := file.found
  obtain ⟨_, _, _, rewalk, _, relinks, refound⟩ := again.found
  obtain ⟨rfl, rfl⟩ := walk.unique sane rewalk
  obtain rfl := relinks.unique sane.exclusive links
  rw [found] at refound
  exact (Option.some.inj refound).symm

theorem FileAt.storable (sane : Sane vol) (file : FileAt vol v path pos cs) {parent : Nat} {name : List UInt8}
    {owner : Option Pos} {ps : List Nat} (target : Target vol v path parent name owner ps) : Storable name := by
  obtain ⟨_, _, _, walk, _, links, found⟩ := file.found
  obtain ⟨rfl, rfl⟩ := walk.unique sane target.walk
  obtain rfl := links.unique sane.exclusive target.links
  exact storable_of_lookup found

section Truncation

variable {before after : Medium} (ready : Ready vol (view vol before.disk))
  (file : FileAt vol (view vol before.disk) path pos cs)
  (wrote : Wrote vol (view vol before.disk) path [] (some 0) (view vol after.disk))
include ready file wrote

theorem truncated_reads (named : FileAt vol (view vol before.disk) other pos ds) {fuel : Nat} (long : Fuelled vol fuel)
    (maxlen : Nat) : (fatReadFile vol fuel other maxlen after).map Prod.fst = some (some []) := by
  have rewrote := wrote.alias ready.start ready.sane file named
  obtain ⟨q, es, there, size, _⟩ := rewrote.names ready.sane ready.formed ready.start (named.storable ready.sane)
    (Nat.two_pow_pos 32)
  rw [(fatReadFile_follows ready.faultless ready.sane ready.mounted there rfl maxlen).result long, size]
  simp

theorem truncation_harmless_iff :
    (∀ other q ds, FileAt vol (view vol before.disk) other q ds → ∀ maxlen fuel, Fuelled vol fuel →
      (fatReadFile vol fuel other maxlen after).map Prod.fst = (fatReadFile vol fuel other maxlen before).map Prod.fst) ↔
    ∀ maxlen fuel, Fuelled vol fuel → (fatReadFile vol fuel path maxlen before).map Prod.fst = some (some []) := by
  constructor
  · intro same maxlen fuel long
    rw [← same path pos cs file maxlen fuel long]
    exact truncated_reads ready file wrote file long maxlen
  · intro empty other q ds named maxlen fuel long
    have reads : ∀ {path : List UInt8} {q : Pos} {ds : List Nat}, FileAt vol (view vol before.disk) path q ds →
        (fatReadFile vol fuel path maxlen before).map Prod.fst = some (some (((view vol before.disk).bytes vol ds).take
          (min (entrySize ((view vol before.disk).slot q)) maxlen))) := fun file =>
      (fatReadFile_follows ready.faultless ready.sane ready.mounted file rfl maxlen).result long
    by_cases here : q = pos
    · subst here
      -- The truncated file under this name, whose clusters are those found under the other.
      rw [truncated_reads ready file wrote named long, reads named, ← reads ⟨file.found, named.isFile, named.chain⟩]
      exact (empty maxlen fuel long).symm
    · obtain ⟨kept, same, bytes⟩ := wrote.keeps ready.sane ready.formed ready.start
        (fun target => (file.storable ready.sane target).used) named fun es again => here (file.unique ready.sane again)
      rw [(fatReadFile_follows ready.faultless ready.sane ready.mounted kept rfl maxlen).result long, reads named, same,
        bytes]

end Truncation

theorem sample_holds_file {after : Medium} {data : List UInt8} (small : data.length < 2 ^ 32)
    (ran : fatWriteFile (sampleVolume 2 2) 200 [0x41] data (emptyMedium 2) = some (some data.length, after)) :
    Ready (sampleVolume 2 2) (view (sampleVolume 2 2) after.disk) ∧
      ∃ pos cs, FileAt (sampleVolume 2 2) (view (sampleVolume 2 2) after.disk) [0x41] pos cs ∧
        entrySize ((view (sampleVolume 2 2) after.disk).slot pos) = data.length := by
  have leaf : StorableLeaf [0x41] := (validPath_single (by decide) (by decide)).leaf
  have ready := emptyMedium_consistent.ready
  have wrote := (fatWriteFile_ends ready [0x41] data).2 _ _ ran
  obtain ⟨pos, cs, file, size, _⟩ := wrote.names ready.sane ready.formed ready.start
    (fun target => target.storable leaf) small
  exact ⟨(emptyMedium_consistent.write leaf ran).ready, pos, cs, file, size⟩

end GWKernel.Fat

namespace GWKernel.Syscall
open Lib Vfs List Option

variable {state after : State} {fuel : Nat} {path : List UInt8} {result : Int}

def NamesFile (fuel : Nat) (state : State) (path : List UInt8) : Prop :=
  (∃ n, vfsLookup state fuel path = some (some n) ∧ (state.ram.nodes n).type = .file) ∨
    (parseDrive state.drive path).1 = .d ∧
      ∃ pos cs, Fat.FileAt state.vol (Fat.view state.vol state.medium.disk) (parseDrive state.drive path).2 pos cs

structure SameFiles (before after : State) : Prop where
  ram : ∀ n, (before.ram.nodes n).type = .file →
    (after.ram.nodes n).data = (before.ram.nodes n).data ∧ (after.ram.nodes n).size = (before.ram.nodes n).size
  fat : ∀ other pos cs, Fat.FileAt before.vol (Fat.view before.vol before.medium.disk) other pos cs →
    ∀ maxlen fuel, Fat.Fuelled before.vol fuel → (Fat.fatReadFile before.vol fuel other maxlen after.medium).map Prod.fst =
      (Fat.fatReadFile before.vol fuel other maxlen before.medium).map Prod.fst

theorem SameFiles.refl (state : State) : SameFiles state state := ⟨fun _ _ => ⟨rfl, rfl⟩, fun _ _ _ _ _ _ _ => rfl⟩

def EmptyOnD (state : State) (path : List UInt8) : Prop := ∀ maxlen fuel, Fat.Fuelled state.vol fuel →
  (Fat.fatReadFile state.vol fuel (parseDrive state.drive path).2 maxlen state.medium).map Prod.fst = some (some [])

theorem sysOpen_onD (onD : (parseDrive state.drive path).1 = .d) (missing : vfsLookup state fuel path = some none)
    (ran : sysOpen fuel path state = some (result, after)) : after.ram = state.ram ∧ ∃ wrote,
      Fat.fatWriteFile state.vol fuel (parseDrive state.drive path).2 [] state.medium = some (wrote, after.medium) := by
  obtain ⟨found, looked, ran⟩ := bind_eq_some_iff.mp ran
  rw [missing] at looked
  cases looked
  obtain ⟨⟨created, middle⟩, made, ran⟩ := bind_eq_some_iff.mp ran
  unfold vfsCreateFile at made
  simp only [onD, true_or, if_true] at made
  obtain ⟨⟨wrote, last⟩, called, made⟩ := bind_eq_some_iff.mp made
  obtain ⟨rfl, rfl⟩ := Prod.mk.inj (Option.some.inj made)
  obtain ⟨same, _, _, _, written⟩ := onFat_keeps called
  suffices is : after = last from is ▸ ⟨same, wrote, written⟩
  cases wrote with
  | none =>
    cases ran
    rfl
  | some size =>
    obtain ⟨found, _, ran⟩ := bind_eq_some_iff.mp ran
    cases found with
    | none | some =>
      cases ran
      rfl

theorem sysOpen_found {n : Nat} (found : vfsLookup state fuel path = some (some n))
    (ran : sysOpen fuel path state = some (result, after)) : after = state := by
  obtain ⟨node, looked, ran⟩ := bind_eq_some_iff.mp ran
  rw [found] at looked
  cases looked
  cases ran
  rfl

/-- Opening a file that exists keeps all files exactly if `vfs_lookup` finds it or it is empty. -/
theorem open_keeps_files_iff
    (ready : (parseDrive state.drive path).1 = .d → Fat.Ready state.vol (Fat.view state.vol state.medium.disk))
    (names : NamesFile fuel state path) (ran : sysOpen fuel path state = some (result, after)) :
    SameFiles state after ↔ (∃ n, vfsLookup state fuel path = some (some n)) ∨ EmptyOnD state path := by
  by_cases found : ∃ n, vfsLookup state fuel path = some (some n)
  · obtain ⟨n, looked⟩ := found
    rw [sysOpen_found looked ran]
    exact ⟨fun _ => .inl ⟨n, looked⟩, fun _ => SameFiles.refl state⟩
  · have missing : vfsLookup state fuel path = some none := by
      obtain ⟨node, looked, _⟩ := bind_eq_some_iff.mp ran
      cases node with
      | none => exact looked
      | some n => exact absurd ⟨n, looked⟩ found
    obtain ⟨onD, pos, cs, file⟩ : (parseDrive state.drive path).1 = .d ∧ ∃ pos cs, Fat.FileAt state.vol
        (Fat.view state.vol state.medium.disk) (parseDrive state.drive path).2 pos cs :=
      names.resolve_left fun ⟨n, looked, _⟩ => found ⟨n, looked⟩
    obtain ⟨sameRam, wrote, written⟩ := sysOpen_onD onD missing ran
    have ready := ready onD
    have truncated := ((Fat.fatWriteFile_ends ready _ []).2 _ _ written).truncates ready.start file
    have harmless := Fat.truncation_harmless_iff ready file truncated
    constructor
    · exact fun same => .inr (harmless.mp same.fat)
    · intro reason
      refine ⟨fun n _ => by rw [sameRam]; exact ⟨rfl, rfl⟩, harmless.mpr (reason.resolve_left found)⟩

theorem open_keeps_empty_file : ∃ state after, NamesFile 200 state (text "D:/A") ∧
    sysOpen 200 (text "D:/A") state = some (-1, after) ∧ SameFiles state after := by
  have facts : ((Fat.fatWriteFile (Fat.sampleVolume 2 2) 200 [0x41] [] (Fat.emptyMedium 2)).bind fun made =>
      (sysOpen 200 (text "D:/A") { emptyState with medium := made.2 }).map fun opened =>
        decide (made.1 = some 0 ∧ opened.1 = -1)) = some true := by decide +kernel
  obtain ⟨⟨_, made⟩, written, facts⟩ := bind_eq_some_iff.mp facts
  obtain ⟨⟨_, after⟩, opened, facts⟩ := map_eq_some_iff.mp facts
  obtain ⟨rfl, rfl⟩ := of_decide_eq_true facts
  obtain ⟨ready, pos, cs, file, size⟩ := Fat.sample_holds_file (by decide) written
  have names : NamesFile 200 { emptyState with medium := made } (text "D:/A") := .inr ⟨rfl, pos, cs, file⟩
  refine ⟨_, after, names, opened, (open_keeps_files_iff (fun _ => ready) names opened).mpr (.inr fun maxlen fuel long => ?_)⟩
  have read := (Fat.fatReadFile_follows ready.faultless ready.sane ready.mounted file rfl maxlen).result long
  rw [size, List.length_nil, Nat.zero_min, List.take_zero] at read
  exact read

/-- A file of three bytes on drive D is empty after it has been opened. -/
theorem open_truncates_file : ∃ state after, NamesFile 200 state (text "D:/A") ∧
    Fat.Ready state.vol (Fat.view state.vol state.medium.disk) ∧
    sysOpen 200 (text "D:/A") state = some (-1, after) ∧ ¬SameFiles state after := by
  have facts : ((Fat.fatWriteFile (Fat.sampleVolume 2 2) 200 [0x41] [1, 2, 3] (Fat.emptyMedium 2)).bind fun made =>
      (sysOpen 200 (text "D:/A") { emptyState with medium := made.2 }).map fun opened =>
        decide (made.1 = some 3 ∧ opened.1 = -1 ∧
          (Fat.fatReadFile (Fat.sampleVolume 2 2) 200 [0x41] 512 made.2).map Prod.fst = some (some [1, 2, 3]) ∧
          (Fat.fatReadFile (Fat.sampleVolume 2 2) 200 [0x41] 512 opened.2.medium).map Prod.fst = some (some []))) =
      some true := by decide +kernel
  obtain ⟨⟨_, made⟩, written, facts⟩ := bind_eq_some_iff.mp facts
  obtain ⟨⟨_, after⟩, opened, facts⟩ := map_eq_some_iff.mp facts
  obtain ⟨rfl, rfl, full, empty⟩ := of_decide_eq_true facts
  obtain ⟨ready, pos, cs, file, _⟩ := Fat.sample_holds_file (by decide) written
  refine ⟨{ emptyState with medium := made }, after, .inr ⟨rfl, pos, cs, file⟩, ready, opened, fun same => ?_⟩
  have long : Fat.Fuelled (Fat.sampleVolume 2 2) 200 := Nat.lt_of_sub_pos (by decide)
  have kept := same.fat _ pos cs file 512 200 long
  exact absurd (empty.symm.trans (kept.trans full)) (by decide)

end GWKernel.Syscall
