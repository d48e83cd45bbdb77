import GWKernel.Proofs.FatLookup
import GWKernel.Proofs.FatPaths
import GWKernel.Proofs.FatRoundTrip

/-! Two files written one after the other. `to_83` squeezes every name into eleven bytes, so the
second can be the first under another name; and nothing finds a name that begins with 0xE5. -/

namespace GWKernel.Fat
open Lib List
open Option (bind_eq_some_iff map_eq_some_iff)

variable {vol : Volume} {v : View} {medium : Medium} {fuel : Nat} {name : List UInt8}

/-- A file name: a string of 1 to 15 bytes without a separator. -/
structure FileName (name : List UInt8) : Prop where
  short : 1 ≤ name.length ∧ name.length ≤ 15
  plain : ∀ char ∈ name, char ≠ 0 ∧ isSeparator char = false

section
variable (file : FileName name)
include file

theorem FileName.ne_nil : name ≠ [] := length_pos_iff.mp file.short.1

theorem FileName.pathParts : pathParts name.length name = [name] :=
  pathParts_short file.ne_nil (fun char member => (file.plain char member).2) file.short.2

theorem FileName.startCluster : startCluster vol name = vol.cwdCluster := by
  obtain ⟨first, rest, rfl⟩ := exists_cons_of_ne_nil file.ne_nil
  have plain := (file.plain first mem_cons_self).2
  simp [Fat.startCluster, plain]

theorem FileName.walk :
    Walk vol v (Fat.startCluster vol name) (Fat.pathParts name.length name) vol.cwdCluster name := by
  rw [file.startCluster, file.pathParts]
  exact .last

theorem FileName.head : ∃ char, (to83 name).head? = some char ∧ char ≠ 0 ∧
    (char = 0xE5 ↔ name.head? = some 0xE5) := by
  obtain ⟨first, rest, rfl⟩ := exists_cons_of_ne_nil file.ne_nil
  rw [head?_cons, Option.some_inj]
  exact to83_first (file.plain first mem_cons_self).1

theorem FileName.used : (to83 name).head? ≠ some 0 := by
  obtain ⟨char, head, nonzero, _⟩ := file.head
  rw [head]
  exact fun zero => nonzero (Option.some.inj zero)

theorem FileName.storable (visible : name.head? ≠ some 0xE5) : Storable name := by
  obtain ⟨char, head, nonzero, deleted⟩ := file.head
  exact ⟨char, head, nonzero, fun same => visible (deleted.mp same)⟩

end

variable {path : List UInt8} {pos : Pos} {cs : List Nat}

theorem FileName.target (file : FileName name) {parent : Nat} {owner : Option Pos} {ps : List Nat}
    (is : path = name) {leaf : List UInt8} (target : Target vol v path parent leaf owner ps) : leaf = name := by
  subst is
  have last := target.walk.name_last target.named
  rw [file.pathParts] at last
  exact (Option.some.inj last).symm

theorem lookup_congr {other : List UInt8} (same : to83 name = to83 other) (cs : List Nat) :
    v.lookup vol name cs = v.lookup vol other cs := by
  unfold View.lookup eq83
  rw [same]

section
variable (deleted : (to83 name).head? = some 0xE5)
include deleted

theorem findVisit_deleted (lba off : Nat) (entry : Mem) (found : Found) :
    findVisit name lba off entry () ≠ .error (some found) := by
  have missed : entryHidden entry = true ∨ eq83 name entry = false := by
    by_cases first : entry 0 = 0xE5
    · exact .inl (by simp [entryHidden, first])
    · refine .inr ?_
      by_contra same
      rw [Bool.not_eq_false, eq83_iff] at same
      rw [same, entryName_head] at deleted
      exact first (Option.some.inj deleted)
  unfold findVisit
  split
  next => simp
  split
  next => simp
  next shown =>
    rw [missed.resolve_left shown]
    simp

theorem scanSector_deleted (lba : Nat) (sector : Mem) (found : Found) :
    scanSector (findVisit name) lba sector () ≠ .error (some found) := by
  unfold scanSector
  induction slotOffsets with
  | nil => exact fun no => nomatch no
  | cons off rest ih =>
    rw [foldlM_cons]
    cases visited : findVisit name lba off (entryAt sector off) () with
    | error result =>
      intro is
      rw [Except.error.inj is] at visited
      exact findVisit_deleted deleted lba off _ found visited
    | ok _ => exact ih

theorem finds_deleted {disk : Nat → Mem} {cl : Nat} {acc : Unit}
    {result : Option Found} (finds : Scans vol disk (findVisit name) (fun _ => none) (fun _ => none) cl acc result) :
    result = none := by
  have missed : ∀ {sectors : List Nat} {cl : Nat} {found : Found},
      scanned vol disk (findVisit name) (fun _ => none) cl sectors () ≠ .error (some found) := by
    intro sectors
    induction sectors with
    | nil => exact fun no => nomatch no
    | cons s rest ih =>
      intro cl found
      unfold scanned
      dsimp only
      split
      next =>
        split
        next result stopped =>
          intro is
          rw [Except.error.inj is] at stopped
          exact scanSector_deleted deleted _ _ found stopped
        next => exact ih
      next => exact fun no => nomatch no
  induction finds with
  | leaves => rfl
  | @stops _ _ result _ stop =>
    cases result with
    | none => rfl
    | some found => exact absurd stop missed
  | follows _ _ _ ih => exact ih

end

theorem FileName.unreadable (file : FileName name) (deleted : name.head? = some 0xE5) (maxlen : Nat) :
    Ends False (fatReadFile vol fuel name maxlen) medium fun result _ => result = none := by
  obtain ⟨char, head, _, is⟩ := file.head
  rw [is.mpr deleted] at head
  unfold fatReadFile resolveFull
  refine Ends.branch (fun _ => ?_) fun _ => Ends.pure rfl
  split
  next => exact Ends.pure rfl
  next =>
    rw [bind_assoc]
    refine (resolveParent_tells fuel name).bind fun result middle ⟨resolved, _⟩ => ?_
    unfold Resolved at resolved
    rw [file.pathParts] at resolved
    cases resolved
    dsimp only
    rw [if_neg file.ne_nil, bind_assoc]
    refine (dirFind_tells fuel _ name).bind fun result _ ⟨finds, _⟩ => ?_
    rw [finds_deleted head finds]
    exact Ends.pure rfl

theorem FileName.leaf (file : FileName name) (visible : name.head? ≠ some 0xE5) : StorableLeaf name := by
  intro part last
  rw [file.pathParts] at last
  cases last
  exact file.storable visible

theorem fatWriteFile_small {data : List UInt8} {size : Nat} {after : Medium}
    (ran : fatWriteFile vol fuel path data medium = some (some size, after)) : data.length ≤ 512 * 64 := by
  by_contra large
  unfold fatWriteFile at ran
  rw [if_neg fun all => large all.2.2] at ran
  cases ran

theorem FileAt.reads {data : List UInt8} {again maxlen : Nat} (ready : Ready vol v)
    (file : FileAt vol (view vol medium.disk) path pos cs)
    (size : entrySize ((view vol medium.disk).slot pos) = data.length)
    (content : data <+: (view vol medium.disk).bytes vol cs) (room : data.length ≤ maxlen)
    (long : Fuelled vol again) : (fatReadFile vol again path maxlen medium).map Prod.fst = some (some data) := by
  obtain ⟨rest, is⟩ := content
  rw [(fatReadFile_follows ready.faultless ready.sane ready.mounted file rfl maxlen).result long, size,
    Nat.min_eq_left room, ← is, take_left]

theorem FileName.written {before after : Medium} {data : List UInt8} {size : Nat} (consistent : Consistent ⟨vol, before⟩)
    (file : FileName name) (visible : name.head? ≠ some 0xE5)
    (ran : fatWriteFile vol fuel name data before = some (some size, after)) : Consistent ⟨vol, after⟩ ∧
      ∃ pos cs, FileAt vol (view vol after.disk) name pos cs ∧
        entrySize ((view vol after.disk).slot pos) = data.length ∧ data <+: (view vol after.disk).bytes vol cs := by
  have ready := consistent.ready
  have small := fatWriteFile_small ran
  have wrote := (fatWriteFile_ends ready name data).2 _ _ ran
  exact ⟨consistent.write (file.leaf visible) ran, wrote.names ready.sane ready.formed ready.start
    (fun target => target.storable (file.leaf visible)) (by omega)⟩

theorem FileAt.renamed {a b : List UInt8} (first : FileName a) (second : FileName b) (same : to83 a = to83 b)
    (file : FileAt vol v b pos cs) : FileAt vol v a pos cs := by
  obtain ⟨parent, leaf, ps, walk, named, links, found⟩ := file.found
  have last := walk.name_last named
  rw [second.startCluster, second.pathParts] at walk
  rw [second.pathParts] at last
  cases last
  cases walk
  exact ⟨⟨_, a, ps, first.walk, first.ne_nil, links, (lookup_congr same ps).trans found⟩, file.isFile, file.chain⟩

theorem FileAt.entryName_eq (first : FileName name) (file : FileAt vol v name pos cs) :
    entryName (v.slot pos) = to83 name := by
  obtain ⟨parent, leaf, ps, walk, named, links, found⟩ := file.found
  have last := walk.name_last named
  rw [first.pathParts] at last
  cases last
  exact (lookup_some found).2.2.symm

/-- Of two files written to the current directory, the first is read back exactly when its name
does not begin with 0xE5 and the names differ in the bytes that `to_83` makes of them, or the
contents are the same. -/
theorem first_file_kept_iff {before middle after : Medium} {a b x y : List UInt8} {one two again maxlen first second : Nat}
    (consistent : Consistent ⟨vol, before⟩) (nameA : FileName a) (nameB : FileName b)
    (wroteA : fatWriteFile vol one a x before = some (some first, middle))
    (wroteB : fatWriteFile vol two b y middle = some (some second, after)) (long : Fuelled vol again)
    (roomA : x.length ≤ maxlen) (roomB : y.length ≤ maxlen) :
    (fatReadFile vol again a maxlen after).map Prod.fst = some (some x) ↔
      a.head? ≠ some 0xE5 ∧ (to83 a ≠ to83 b ∨ x = y) := by
  by_cases visible : a.head? = some 0xE5
  · refine iff_of_false (fun reads => ?_) fun both => both.1 visible
    obtain ⟨⟨result, final⟩, ran, is⟩ := map_eq_some_iff.mp reads
    rw [(nameA.unreadable visible maxlen).2 _ _ ran] at is
    cases is
  rw [and_iff_right visible]
  obtain ⟨held, pos, cs, file, size, content⟩ := nameA.written consistent visible wroteA
  by_cases same : to83 a = to83 b
  · -- The second write has replaced the file.
    have visibleB : b.head? ≠ some 0xE5 := by
      obtain ⟨char, head, _, deleted⟩ := nameA.head
      obtain ⟨other, head', _, deleted'⟩ := nameB.head
      rw [same, head', Option.some_inj] at head
      subst head
      exact fun no => visible (deleted.mp (deleted'.mpr no))
    obtain ⟨_, q, ds, found, length, bytes⟩ := nameB.written held visibleB wroteB
    rw [(found.renamed nameA nameB same).reads held.ready length bytes roomB long, Option.some_inj, Option.some_inj]
    exact ⟨fun is => .inr is.symm, fun either => (either.resolve_left (not_not.mpr same)).symm⟩
  · refine iff_of_true ?_ (.inl same)
    have ready := held.ready
    have wrote := (fatWriteFile_ends ready b y).2 _ _ wroteB
    obtain ⟨kept, slot, bytes⟩ := wrote.keeps ready.sane ready.formed ready.start
      (fun target => by rw [nameB.target rfl target]; exact nameB.used) file
      fun ds clash => same ((file.entryName_eq nameA).symm.trans (clash.entryName_eq nameB))
    exact kept.reads ready (by rw [slot, size]) (by rwa [bytes]) roomA long

theorem first_file_kept_beside_other : ∃ middle after,
    fatWriteFile (sampleVolume 2 2) 200 [0x41] [1, 2] (emptyMedium 2) = some (some 2, middle) ∧
      fatWriteFile (sampleVolume 2 2) 200 [0x42] [3] middle = some (some 1, after) ∧
      (fatReadFile (sampleVolume 2 2) 200 [0x41] 32768 after).map Prod.fst = some (some [1, 2]) := by
  have ran : ((fatWriteFile (sampleVolume 2 2) 200 [0x41] [1, 2] (emptyMedium 2)).bind fun one =>
      (fatWriteFile (sampleVolume 2 2) 200 [0x42] [3] one.2).map fun two => (one.1, two.1)) =
        some (some 2, some 1) := by decide +kernel
  obtain ⟨⟨one, middle⟩, wroteA, rest⟩ := bind_eq_some_iff.mp ran
  obtain ⟨⟨two, after⟩, wroteB, is⟩ := map_eq_some_iff.mp rest
  obtain ⟨rfl, rfl⟩ := Prod.mk.inj is
  exact ⟨middle, after, wroteA, wroteB, (first_file_kept_iff emptyMedium_consistent ⟨by decide, by decide +kernel⟩
    ⟨by decide, by decide +kernel⟩ wroteA wroteB (Nat.lt_of_sub_pos (by decide)) (by decide) (by decide)).mpr
      ⟨by decide, .inl (by decide)⟩⟩

/-- The names `a.html` and `a.htm` are both `A       HTM` in an entry. -/
theorem first_file_lost : ∃ middle after,
    Consistent ⟨sampleVolume 2 2, emptyMedium 2⟩ ∧
      FileName [0x61, 0x2E, 0x68, 0x74, 0x6D, 0x6C] ∧ FileName [0x61, 0x2E, 0x68, 0x74, 0x6D] ∧
      [0x61, 0x2E, 0x68, 0x74, 0x6D, 0x6C].map upper ≠ [0x61, 0x2E, 0x68, 0x74, 0x6D].map upper ∧
      fatWriteFile (sampleVolume 2 2) 200 [0x61, 0x2E, 0x68, 0x74, 0x6D, 0x6C] [1, 2] (emptyMedium 2) =
        some (some 2, middle) ∧
      fatWriteFile (sampleVolume 2 2) 200 [0x61, 0x2E, 0x68, 0x74, 0x6D] [3] middle = some (some 1, after) ∧
      (fatReadFile (sampleVolume 2 2) 200 [0x61, 0x2E, 0x68, 0x74, 0x6D, 0x6C] 32768 after).map Prod.fst =
        some (some [3]) := by
  have ran : ((fatWriteFile (sampleVolume 2 2) 200 [0x61, 0x2E, 0x68, 0x74, 0x6D, 0x6C] [1, 2] (emptyMedium 2)).bind
      fun one => (fatWriteFile (sampleVolume 2 2) 200 [0x61, 0x2E, 0x68, 0x74, 0x6D] [3] one.2).bind fun two =>
        (fatReadFile (sampleVolume 2 2) 200 [0x61, 0x2E, 0x68, 0x74, 0x6D, 0x6C] 32768 two.2).map fun three =>
          (one.1, two.1, three.1)) = some (some 2, some 1, some [3]) := by decide +kernel
  obtain ⟨⟨one, middle⟩, wroteA, rest⟩ := bind_eq_some_iff.mp ran
  obtain ⟨⟨two, after⟩, wroteB, rest⟩ := bind_eq_some_iff.mp rest
  obtain ⟨⟨three, final⟩, read, is⟩ := map_eq_some_iff.mp rest
  obtain ⟨rfl, others⟩ := Prod.mk.inj is
  obtain ⟨rfl, rfl⟩ := Prod.mk.inj others
  exact ⟨middle, after, emptyMedium_consistent, ⟨by decide, by decide +kernel⟩, ⟨by decide, by decide +kernel⟩, by decide, wroteA,
    wroteB, by rw [read]; rfl⟩

def spell (base extension : List UInt8) : List UInt8 := base ++ if extension = [] then [] else 0x2E :: extension

/-- The base and the extension of a valid short name; there may be no extension. -/
structure ShortParts (base extension : List UInt8) : Prop where
  baseSize : 1 ≤ base.length ∧ base.length ≤ 8
  extensionSize : extension.length ≤ 3
  plain : ∀ char ∈ base ++ extension, validChar char = true

variable {base extension : List UInt8}

theorem to83_spell (short : ShortParts base extension) :
    to83 (spell base extension) = padTo 8 (base.map upper) ++ padTo 3 (extension.map upper) := by
  obtain ⟨⟨_, baseFits⟩, fits, plain⟩ := short
  simp only [validChar, Bool.and_eq_true, bne_iff_ne] at plain
  have inBase : ∀ char ∈ base, (char != 0x2E && !isSeparator char) = true := fun char member =>
    have plain := plain char (mem_append_left _ member)
    Bool.and_eq_true_iff.mpr ⟨bne_iff_ne.mpr plain.1.2, plain.2⟩
  have inExtension : extension.takeWhile (fun char => !isSeparator char) = extension :=
    takeWhile_eq_self_iff.mpr fun char member => (plain char (mem_append_right _ member)).2
  unfold spell to83
  cases extension with
  | nil => simp [takeWhile_eq_self_iff.mpr inBase, take_of_length_le baseFits]
  | cons first rest =>
    have taken : (base ++ 0x2E :: first :: rest).takeWhile (fun char => char != 0x2E && !isSeparator char) = base := by
      rw [takeWhile_append_of_pos inBase, takeWhile_cons_of_neg (by decide), append_nil]
    simp [taken, take_of_length_le baseFits, inExtension, take_of_length_le fits]

theorem takeWhile_padTo {width : Nat} {text : List UInt8} (plain : ∀ char ∈ text, char ≠ 0x20) :
    (padTo width text).takeWhile (· != 0x20) = text := by
  rw [padTo, takeWhile_append_of_pos (fun char member => bne_iff_ne.mpr (plain char member))]
  simp

theorem print83_padTo (baseFits : base.length ≤ 8) (plain : ∀ char ∈ base ++ extension, char ≠ 0x20) :
    print83 (padTo 8 base ++ padTo 3 extension) = spell base extension := by
  have width := padTo_length baseFits
  have inExtension := fun char member => plain char (mem_append_right _ member)
  rw [print83, take_left' width, drop_left' width,
    takeWhile_padTo fun char member => plain char (mem_append_left _ member), takeWhile_padTo inExtension]
  cases extension with
  | nil => simp [padTo, spell]
  | cons first rest => simp [padTo, spell, inExtension first mem_cons_self]

theorem spell_map (f : UInt8 → UInt8) (dot : f 0x2E = 0x2E) :
    spell (base.map f) (extension.map f) = (spell base extension).map f := by
  cases extension <;> simp [spell, dot]

/-- `to_83` and `print_83` are inverse to each other, up to case. The text printed for an entry
ends before its first NUL. -/
theorem short_names_inverse (short : ShortParts base extension) :
    print83 (to83 (spell base extension)) = (spell base extension).map upper ∧
    ((∀ char ∈ base ++ extension, ¬(0x61 ≤ char ∧ char ≤ 0x7A)) →
      to83 ((print83 (padTo 8 base ++ padTo 3 extension)).takeWhile (· != 0)) =
        padTo 8 base ++ padTo 3 extension) := by
  have plain := short.plain
  simp only [validChar, Bool.and_eq_true, bne_iff_ne] at plain
  constructor
  · rw [to83_spell short, print83_padTo (by simpa using short.baseSize.2), spell_map upper rfl]
    rw [← map_append]
    intro _ member
    obtain ⟨char, inside, rfl⟩ := List.mem_map.mp member
    exact upper_ne (by decide) (plain char inside).1.1.2
  · intro capital
    have same : ∀ char ∈ base ++ extension, upper char = char := fun char member => if_neg (capital char member)
    have whole : (spell base extension).takeWhile (· != 0) = spell base extension := by
      refine takeWhile_eq_self_iff.mpr fun char member => bne_iff_ne.mpr ?_
      have inside : char ∈ base ++ extension ∨ char = 0x2E := by
        unfold spell at member
        grind
      rcases inside with inside | rfl
      · exact (plain char inside).1.1.1
      · decide
    rw [print83_padTo short.baseSize.2 fun char member => (plain char member).1.1.2, whole, to83_spell short,
      map_congr_left fun char member => same char (mem_append_left _ member),
      map_congr_left fun char member => same char (mem_append_right _ member), map_id', map_id']

theorem short_names_inverse_capital : ShortParts [0x41] [0x48, 0x54] ∧
    print83 (to83 [0x41, 0x2E, 0x48, 0x54]) = [0x41, 0x2E, 0x48, 0x54] ∧
    to83 ((print83 (padTo 8 [0x41] ++ padTo 3 [0x48, 0x54])).takeWhile (· != 0)) =
      padTo 8 [0x41] ++ padTo 3 [0x48, 0x54] := by
  have short : ShortParts [0x41] [0x48, 0x54] := ⟨by decide, by decide, by decide +kernel⟩
  have inverse := short_names_inverse short
  exact ⟨short, inverse.1, inverse.2 (by decide +kernel)⟩

/-- The text of an entry ends for `to_83` at the first NUL. -/
theorem short_names_nul : (∀ char ∈ [0x00], char ≠ 0x20 ∧ char ≠ 0x2E ∧ ¬(0x61 ≤ char ∧ char ≤ 0x7A) ∧
      isSeparator char = false) ∧
    to83 ((print83 (padTo 8 [0x00] ++ padTo 3 [])).takeWhile (· != 0)) ≠ padTo 8 [0x00] ++ padTo 3 [] := by
  decide +kernel

end GWKernel.Fat
