import GWKernel.Proofs.CurrentDirectory
import GWKernel.Proofs.FatCwd
import GWKernel.Proofs.FatResolve
import GWKernel.Proofs.FatRoundTrip
import GWKernel.Proofs.MountGeometry

/-! The path that `fat_getcwd` shows. `fat_chdir` keeps it by appending text and drops what does
not fit, and a dot name in the last place means something else as soon as more text follows it. -/

namespace GWKernel.Fat
open Lib List Option

section Directories

variable {vol : Volume} {v u w : View} {medium : Medium} {disk : Nat → Mem} {fuel : Nat}

variable {name path : List UInt8}

theorem finds_answers {d : Nat} {result : Option Found} :
    Answers (fun fuel => dirFind vol fuel d name) medium result ↔ Finds vol medium.disk d name result :=
  answers_iff (fun fuel => (dirFind_tells fuel d name).imp fun _ _ told => told.1)
    fun _ finds => (finds.returns rfl).imp fun _ _ returned => returned.1

theorem finds_iff_lookup (faultless : Faultless vol) (sane : Sane vol) {d : Nat} {ds : List Nat}
    {result : Option Found} (links : (view vol disk).Links vol d ds) : Finds vol disk d name result ↔
      result = ((view vol disk).lookup vol name ds).map (foundOf vol (view vol disk)) := by
  have ends := fun fuel => @dirFind_ends vol ⟨disk, blank, []⟩ faultless sane fuel d ds name links
  have expected : Finds vol disk d name (((view vol disk).lookup vol name ds).map (foundOf vol (view vol disk))) := by
    obtain ⟨value, final, ran, _, is⟩ := (ends (ds.length + 1)).returns (Nat.lt_succ_self _)
    rw [← is]
    exact ((dirFind_tells _ d name).2 _ _ ran).1
  exact ⟨fun finds => finds.unique expected, fun is => is ▸ expected⟩

theorem Untouched.findsDirectories (untouched : Untouched vol v w) : FindsDirectories vol v w := by
  intro owner d ds name pos owns links found _
  refine ⟨ds, untouched.links owns links, (untouched.lookup_eq owns links name).trans found, ?_⟩
  exact untouched.slot_eq owns links (View.mem_slots_of_listing (lookup_some found).1)

theorem Leads.carried {before after : Nat → Mem} (faultless : Faultless vol) (sane : Sane vol)
    (formed : Formed vol (view vol before)) (kept : FindsDirectories vol (view vol before) (view vol after))
    {cl target : Nat} {parts : List (List UInt8)} (leads : Leads vol before cl parts target)
    (begins : IsDirectory vol before cl) : Leads vol after cl parts target := by
  induction leads with
  | done cl => exact .done cl
  | here _ ih => exact .here (ih begins)
  | up _ ih => exact .up (ih ⟨none, .root⟩)
  | @down cl _ part _ found named finds isDir _ ih =>
    obtain ⟨owner, owns⟩ := begins
    obtain ⟨_, ds, links⟩ := formed.dir_links owns
    have is := (finds_iff_lookup faultless sane links).mp finds
    obtain ⟨pos, looked, rfl⟩ := Option.map_eq_some_iff.mp is.symm
    obtain ⟨es, relinks, again, same⟩ := kept owns links looked isDir
    have child := owns.found links looked
    rw [show entryIsDir ((view vol before).slot pos) = true from isDir] at child
    refine .down named ((finds_iff_lookup faultless sane relinks).mpr ?_) isDir (ih ⟨_, child⟩)
    rw [again, Option.map_some, foundOf, foundOf, same]

theorem Target.used {parent : Nat} {owner : Option Pos} {ps : List Nat}
    (target : Target vol v path parent name owner ps) (text : ∀ char ∈ path, char ≠ 0) :
    (to83 name).head? ≠ some 0 := by
  obtain ⟨_, inside⟩ := pathParts_spec (mem_of_getLast? (target.walk.name_last target.named))
  obtain ⟨first, rest, rfl⟩ := exists_cons_of_ne_nil target.named
  obtain ⟨char, head, nonzero, _⟩ := @to83_first first rest (text first (inside first mem_cons_self))
  rw [head]
  exact fun zero => nonzero (Option.some.inj zero)

section Keeping

variable {path name : List UInt8} {parent : Nat} {owner : Option Pos} {ps ns : List Nat} {pos : Pos}
  (sane : Sane vol) (formed : Formed vol v) (target : Target vol v path parent name owner ps)
  (prepared : Prepared vol v name ps pos u)
include sane formed target prepared

theorem Prepared.findsDirectories (spares : ∀ c, u.fat c ≠ 0 → w.fat c = u.fat c ∧ w.data c = u.data c) :
    FindsDirectories vol v w := by
  intro other d ds sought q owns links found isDir
  obtain ⟨es, relinks, same, _⟩ := prepared.chain sane formed target owns (prepared.not_dir owns) links
  have stays := fun c (member : c ∈ ds ++ es) => spares c (relinks.fat_ne_zero member)
  have slots_eq : ∀ p ∈ slots vol ds, w.slot p = v.slot p := fun p member => by
    have here := (mem_slots.mp member).1
    exact View.slot_eq_of_data ((stays _ (mem_append_left _ here)).2.trans (same _ here))
  obtain ⟨before, after, split, used, matched, earlier⟩ := lookup_eq_some.mp found
  have there := slots_eq q (View.mem_slots_of_listing (lookup_some found).1)
  refine ⟨ds ++ es, relinks.congr fun c member => (stays c member).1,
    lookup_eq_some.mpr ⟨before, after ++ slots vol es, by simp [slots_append, split], ?_, ?_, fun p member => ?_⟩, there⟩
  · rwa [there]
  · rwa [View.Matches, there]
  · rw [View.Matches, slots_eq p (by simp [split, member])]
    exact earlier p member

end Keeping

theorem Wrote.findsDirectories (sane : Sane vol) (formed : Formed vol v) {data : List UInt8} {result : Option Nat}
    (text : ∀ char ∈ path, char ≠ 0) (wrote : Wrote vol v path data result w) : FindsDirectories vol v w := by
  cases wrote with
  | refused _ _ => exact fun _ links found _ => ⟨_, links, found, rfl⟩
  | short target prepared _ _ _ _ spares => exact prepared.findsDirectories sane formed target spares
  | written target prepared content =>
    exact prepared.findsDirectories_entry sane formed target content.takes (newEntry_short _ _ _ _)
      (newEntry_used (target.used text) _ _ _) (newEntry_name _ _ _ _)

theorem Made.findsDirectories (sane : Sane vol) (formed : Formed vol v) {ok : Bool} (text : ∀ char ∈ path, char ≠ 0)
    (begins : ∃ owner, Owns vol v owner true (startCluster vol path)) (made : Made vol v path ok w) :
    FindsDirectories vol v w := by
  cases made with
  | refused _ => exact fun _ links found _ => ⟨_, links, found, rfl⟩
  | @stranded parent nc name owner ps target missing candidate free slot =>
    exact Untouched.findsDirectories (takes_addDirectory parent free).untouched
  | @made parent nc name owner ps pos w target missing candidate free slot =>
    have untouched : Untouched vol v (v.addDirectory nc parent) := (takes_addDirectory parent free).untouched
    have stillFormed := Untouched.still_formed sane formed untouched
    have owned : ∀ {other isDir start}, Owns vol v other isDir start → Owns vol (v.addDirectory nc parent) other isDir start :=
      fun owns => (untouched.owns_iff sane formed).mpr owns
    have prepared : Prepared vol (v.addDirectory nc parent) name ps pos w :=
      .vacant ((untouched.lookup_eq target.owns target.links name).trans missing) slot
    have still : Target vol (v.addDirectory nc parent) path parent name owner ps :=
      ⟨FindsDirectories.walk untouched.findsDirectories target.walk begins, target.named, owned target.owns,
        untouched.links target.owns target.links⟩
    have takes : Takes vol w w [] := ⟨fun _ none => (by cases none), fun _ _ => rfl, fun _ _ => rfl⟩
    have later : FindsDirectories vol (v.addDirectory nc parent) (w.setSlot pos (newEntry name 0x10 nc 0)) :=
      prepared.findsDirectories_entry sane stillFormed still takes (newEntry_short _ _ _ _)
        (newEntry_used (target.used text) _ _ _) (newEntry_name _ _ _ _)
    intro other d ds sought q owns links found isDir
    have same := untouched.slot_eq owns links (View.mem_slots_of_listing (lookup_some found).1)
    obtain ⟨es, relinks, again, kept⟩ := later (owned owns) (untouched.links owns links)
      ((untouched.lookup_eq owns links sought).trans found) (by rw [same, isDir])
    exact ⟨es, relinks, again, kept.trans same⟩

end Directories

def Volume.cwdText (vol : Volume) : List UInt8 := (vol.cwdPath.slice 0 cwdPathSize).takeWhile (· != 0)

def IsAbsolute (path : List UInt8) : Prop := (path.head?.map isSeparator).getD false = true

instance (path : List UInt8) : Decidable (IsAbsolute path) := inferInstanceAs (Decidable (_ = true))

/-- The path that `fat_getcwd` shows is a string that resolves, from the root, to the current
directory. -/
structure CwdNamed (state : State) : Prop where
  terminated : ∃ index < cwdPathSize, state.vol.cwdPath index = 0
  absolute : IsAbsolute (fatGetcwd state.vol cwdPathSize)
  resolves : ∃ size, Answers (fun fuel => resolveFull state.vol fuel (fatGetcwd state.vol cwdPathSize)) state.medium
    (some (state.vol.cwdCluster, size, true))

theorem fatGetcwd_eq {vol : Volume} (short : vol.cwdText.length < cwdPathSize) : fatGetcwd vol cwdPathSize = vol.cwdText :=
  take_of_length_le (Nat.le_pred_of_lt short)

def IsDots (name : List UInt8) : Prop := name = [0x2E] ∨ name = [0x2E, 0x2E]

def joint (text : List UInt8) : List UInt8 := if 1 < text.length ∧ text.getLast? ≠ some 0x2F then [0x2F] else []

def Fits (vol : Volume) (path : List UInt8) : Prop :=
  if IsAbsolute path then path.length < cwdPathSize
  else path = [] ∨ path = [0x2E, 0x2E] ∨ (vol.cwdText ++ joint vol.cwdText ++ path).length < cwdPathSize

/-- What keeps the path right. For `fat_chdir`: the new text fits, and a dot name in the last
place names no directory. For calls that write: the volume is mounted and well formed. -/
def Tidy (state : State) : FatCall → Prop
  | .chdir path => (∀ char ∈ path, char ≠ 0) ∧ Fits state.vol path ∧ (path = [0x2E, 0x2E] ∨
      ∀ name, (pathParts path.length path).getLast? = some name → IsDots name →
        ∀ cl found, Finds state.vol state.medium.disk cl name (some found) → found.isDir = false)
  | .mkdir path => (∀ char ∈ path, char ≠ 0) ∧ Ready state.vol (view state.vol state.medium.disk)
  | .write path _ => (∀ char ∈ path, char ≠ 0) ∧ Ready state.vol (view state.vol state.medium.disk)
  | .unlink _ => False
  | .read _ _ => True
  | .list _ => True

def Returned (before : State) (call : FatCall) (after : State) : Prop :=
  ∃ fuel ok, call.run fuel before = some (ok, after)

variable {vol : Volume} {disk : Nat → Mem} {medium : Medium} {mem : Mem} {text path : List UInt8}

structure Holds (mem : Mem) (text : List UInt8) : Prop where
  bytes : mem.slice 0 text.length = text
  ends : mem text.length = 0
  short : text.length < cwdPathSize
  plain : ∀ char ∈ text, char ≠ 0

theorem Holds.text_eq (holds : Holds mem text) : (mem.slice 0 cwdPathSize).takeWhile (· != 0) = text := by
  obtain ⟨more, size⟩ : ∃ more, cwdPathSize = text.length + (1 + more) :=
    ⟨cwdPathSize - text.length - 1, by have := holds.short; omega⟩
  have last : mem.slice text.length 1 = [0] := by simp [Mem.slice, holds.ends]
  rw [size, Mem.slice_add, holds.bytes, Nat.zero_add, Mem.slice_add, last, singleton_append,
    takeWhile_append_of_pos fun char member => by simpa using holds.plain char member,
    takeWhile_cons_of_neg (by simp), append_nil]

theorem holds_copy (bytes : mem.slice 0 text.length = text) (plain : ∀ char ∈ text ++ path, char ≠ 0)
    (short : (text ++ path).length < cwdPathSize) :
    Holds ((mem.copy text.length path).put (text.length + path.length) 1 0) (text ++ path) := by
  refine ⟨?_, ?_, short, plain⟩
  · rw [length_append, (Mem.put_agree _ _ _ _ (.inl (by omega))).slice_eq, Mem.slice_add, Nat.zero_add, Mem.slice_copy,
      (Mem.copy_agree _ _ _ (.inl (by omega))).slice_eq, bytes]
  · simp [Mem.put]

theorem holds_root (mem : Mem) : Holds ((mem.put 0 1 0x2F).put 1 1 0) [0x2F] := by
  refine ⟨?_, by simp [Mem.put], by decide, by decide +kernel⟩
  simp [Mem.slice, Mem.put]

theorem Holds.last (holds : Holds mem text) (nonempty : text ≠ []) : text.getLast? = some (mem (text.length - 1)) := by
  have positive := length_pos_iff.mpr nonempty
  have same : text[text.length - 1]? = (mem.slice 0 text.length)[text.length - 1]? := by rw [holds.bytes]
  rw [getLast?_eq_getElem?, same, getElem?_eq_getElem (by rw [Mem.slice_length]; omega), Mem.slice_getElem,
    Nat.zero_add]

theorem Holds.append (holds : Holds mem text) (plain : ∀ char ∈ path, char ≠ 0)
    (short : (text ++ joint text ++ path).length < cwdPathSize) (nonempty : path ≠ []) :
    Holds (appendCwd mem path) (text ++ joint text ++ path) := by
  have length : strlen mem cwdPathSize = text.length := by rw [strlen, holds.text_eq]
  have more := length_pos_iff.mpr nonempty
  by_cases slash : 1 < text.length ∧ text.getLast? ≠ some 0x2F
  · have last := slash.2
    rw [holds.last (by rintro rfl; exact absurd slash.1 (by decide))] at last
    have between : joint text = [0x2F] := if_pos slash
    rw [between] at short ⊢
    have room := short
    rw [length_append, length_append, length_singleton] at room
    have inserted : 1 < text.length ∧ mem (text.length - 1) ≠ 0x2F ∧ text.length + 1 < cwdPathSize :=
      ⟨slash.1, fun same => last (congrArg some same), by omega⟩
    have begun : (mem.put text.length 1 0x2F).slice 0 (text ++ [0x2F]).length = text ++ [0x2F] := by
      rw [length_append, length_singleton, Mem.slice_add, (Mem.put_agree _ _ _ _ (.inl (by omega))).slice_eq,
        holds.bytes]
      simp [Mem.slice, Mem.put]
    have held := @holds_copy _ _ path begun (by
      intro char member
      rcases mem_append.mp member with old | new
      · rcases mem_append.mp old with old | slash
        · exact holds.plain char old
        · rw [mem_singleton.mp slash]
          decide
      · exact plain char new) short
    rw [length_append, length_singleton] at held
    simp only [appendCwd, length, if_pos inserted, if_pos room]
    exact held
  · have between : joint text = [] := if_neg slash
    rw [between, append_nil] at short ⊢
    have room : text.length + path.length < cwdPathSize := by simpa using short
    have skipped : ¬(1 < text.length ∧ mem (text.length - 1) ≠ 0x2F ∧ text.length + 1 < cwdPathSize) := by
      rintro ⟨long, last, _⟩
      refine slash ⟨long, ?_⟩
      rw [holds.last (by rintro rfl; exact absurd long (by decide))]
      exact fun same => last (Option.some.inj same)
    simp only [appendCwd, length, if_neg skipped, if_pos room]
    refine holds_copy holds.bytes (fun char member => ?_) short
    rcases mem_append.mp member with old | new
    · exact holds.plain char old
    · exact plain char new

theorem IsAbsolute.append (absolute : IsAbsolute text) (more : List UInt8) : IsAbsolute (text ++ more) := by
  cases text with
  | nil => cases absolute
  | cons => exact absolute

theorem relative_parts (nonempty : path ≠ []) (relative : ¬IsAbsolute path) : pathParts path.length path ≠ [] := by
  obtain ⟨first, rest, rfl⟩ := exists_cons_of_ne_nil nonempty
  have plain : ¬isSeparator first = true := relative
  rw [pathParts_eq, cut_cons (by decide) (by rw [dropWhile_cons_of_neg plain]; exact nonempty)]
  exact cons_ne_nil _ _

theorem pathParts_joint (absolute : IsAbsolute text) (path : List UInt8) :
    pathParts (text ++ joint text ++ path).length (text ++ joint text ++ path) =
      pathParts text.length text ++ pathParts path.length path := by
  by_cases slash : 1 < text.length ∧ text.getLast? ≠ some 0x2F
  · rw [joint, if_pos slash, append_assoc, singleton_append, pathParts_join (by decide)]
  · -- The text ends in a separator.
    have ends : ∃ front char, text = front ++ [char] ∧ isSeparator char = true := by
      rcases eq_nil_or_concat text with rfl | ⟨front, char, rfl⟩
      · cases absolute
      · rw [concat_eq_append] at slash absolute ⊢
        refine ⟨front, char, rfl, ?_⟩
        cases front with
        | nil => exact absolute
        | cons first rest =>
          have last : char = 0x2F := by
            by_contra other
            refine slash ⟨by simp, ?_⟩
            rw [getLast?_concat]
            exact fun same => other (Option.some.inj same)
          rw [last]
          decide
    obtain ⟨front, char, rfl, separator⟩ := ends
    rw [joint, if_neg slash, append_nil, append_assoc, singleton_append, pathParts_join separator,
      pathParts_join separator front []]
    simp [pathParts]

variable {cl target : Nat} {parts : List (List UInt8)}

theorem ResolvesTo.leads {size : Nat}
    (resolves : ResolvesTo vol disk cl parts (some (target, size, true))) (clean : ∀ part ∈ parts, part ≠ [])
    (dots : ∀ name, parts.getLast? = some name → IsDots name →
      ∀ d found, Finds vol disk d name (some found) → found.isDir = false) :
    Leads vol disk cl parts target ∧ ∀ name, parts.getLast? = some name → ¬IsDots name := by
  rcases eq_nil_or_concat parts with rfl | ⟨first, name, rfl⟩
  · rw [ResolvesTo, follows_nil, LooksUp, if_pos rfl] at resolves
    cases resolves
    exact ⟨.done cl, fun _ none => by cases none⟩
  · rw [concat_eq_append] at resolves clean dots ⊢
    rw [getLast?_concat] at dots ⊢
    rcases (follows_append (cons_ne_nil name [])).mp resolves with ⟨parent, leads, last⟩ | ⟨none, _⟩
    · rw [follows_single, LooksUp, if_neg (clean name (by simp))] at last
      obtain ⟨result, finds, is⟩ := last
      obtain ⟨found, rfl, answer⟩ := map_eq_some_iff.mp is.symm
      obtain ⟨rfl, rest⟩ := Prod.mk.inj answer
      have isDir := (Prod.mk.inj rest).2
      have named : ¬IsDots name := fun either => by
        rw [dots name rfl either parent found finds] at isDir
        cases isDir
      exact ⟨leads.append (.down (not_or.mp named) finds isDir (.done _)), fun _ same => Option.some.inj same ▸ named⟩
    · cases none

theorem Leads.resolves (leads : Leads vol disk cl parts target) (clean : ∀ part ∈ parts, part ≠ [])
    (named : ∀ name, parts.getLast? = some name → ¬IsDots name) :
    ∃ size, ResolvesTo vol disk cl parts (some (target, size, true)) := by
  rcases eq_nil_or_concat parts with rfl | ⟨first, name, rfl⟩
  · cases leads
    exact ⟨0, follows_nil.mpr (.start cl)⟩
  · rw [concat_eq_append] at leads clean named ⊢
    obtain ⟨parent, before, last⟩ := leads.split
    cases last with
    | here _ => exact absurd (.inl rfl) (named _ getLast?_concat)
    | up _ => exact absurd (.inr rfl) (named _ getLast?_concat)
    | @down _ _ _ _ found _ finds isDir rest =>
      cases rest
      refine ⟨found.size, (before.follows_iff (cons_ne_nil _ _)).mpr (follows_single.mpr ?_)⟩
      have looks := LooksUp.entry (clean name (by simp)) finds
      rwa [map_some, Found.answer, isDir] at looks

theorem Leads.moved (cwd : Nat) (text : Mem) (leads : Leads vol disk cl parts target) :
    Leads (vol.moveTo cwd text) disk cl parts target := by
  induction leads with
  | done cl => exact .done cl
  | here _ ih => exact .here ih
  | up _ ih => exact .up ih
  | @down cl _ part _ found named finds isDir _ ih =>
    refine .down named ?_ isDir ih
    have answers : Answers (fun fuel => dirFind (vol.moveTo cwd text) fuel cl part) ⟨disk, blank, []⟩ (some found) := by
      simp only [dirFind_moveTo]
      exact finds_answers.mpr finds
    exact finds_answers.mp answers

/-- The text names the current directory, with every piece of it a directory on the way. -/
structure Homed (vol : Volume) (disk : Nat → Mem) : Prop where
  holds : ∃ text, Holds vol.cwdPath text
  absolute : IsAbsolute vol.cwdText
  leads : Leads vol disk vol.rootCluster (pathParts vol.cwdText.length vol.cwdText) vol.cwdCluster
  named : ∀ name, (pathParts vol.cwdText.length vol.cwdText).getLast? = some name → ¬IsDots name

theorem Homed.cwdNamed {state : State} (homed : Homed state.vol state.medium.disk) : CwdNamed state := by
  obtain ⟨text, holds⟩ := homed.holds
  have shown : fatGetcwd state.vol cwdPathSize = state.vol.cwdText := by
    apply fatGetcwd_eq
    rw [Volume.cwdText, holds.text_eq]
    exact holds.short
  refine ⟨⟨text.length, holds.short, holds.ends⟩, shown ▸ homed.absolute, ?_⟩
  rw [shown]
  obtain ⟨size, resolves⟩ := homed.leads.resolves (fun part member => (pathParts_spec member).1) homed.named
  refine ⟨size, resolveFull_answers.mpr ?_⟩
  have start : startCluster state.vol state.vol.cwdText = state.vol.rootCluster := if_pos homed.absolute
  rwa [start]

theorem homed_moved {cwd : Nat} (holds : Holds mem text) (absolute : IsAbsolute text)
    (leads : Leads vol disk vol.rootCluster (pathParts text.length text) cwd)
    (named : ∀ name, (pathParts text.length text).getLast? = some name → ¬IsDots name) :
    Homed (vol.moveTo cwd mem) disk := by
  have same : (vol.moveTo cwd mem).cwdText = text := holds.text_eq
  refine ⟨⟨text, holds⟩, ?_, ?_, ?_⟩
  · rwa [same]
  · rw [same]
    exact leads.moved cwd mem
  · rwa [same]

theorem homed_root (holds : Holds vol.cwdPath [0x2F]) (home : vol.cwdCluster = vol.rootCluster) : Homed vol disk := by
  have same : vol.cwdText = [0x2F] := holds.text_eq
  refine ⟨⟨_, holds⟩, ?_, ?_, ?_⟩
  · rw [same]
    rfl
  · rw [same, home]
    exact .done _
  · rw [same]
    exact fun _ none => nomatch none

theorem fatChdir_homed {fuel : Nat} (homed : Homed vol medium.disk) (tidy : Tidy ⟨vol, medium⟩ (.chdir path)) :
    Ends False (fatChdir vol fuel path) medium fun result final => Homed result.2 final.disk := by
  obtain ⟨plain, fits, dots⟩ := tidy
  obtain ⟨text, holds⟩ := homed.holds
  have is : vol.cwdText = text := holds.text_eq
  obtain ⟨_, absolute, leads, named⟩ := homed
  rw [is] at absolute leads named
  have kept : Homed vol medium.disk := ⟨⟨text, holds⟩, by rwa [is], by rwa [is], by rwa [is]⟩
  unfold fatChdir
  refine Ends.branch (fun _ => ?_) fun _ => Ends.pure kept
  refine (resolveFull_tells fuel path).bind fun answer final ⟨resolves, same⟩ => ?_
  rw [← same.1] at leads kept resolves dots
  have clean : ∀ part ∈ pathParts path.length path, part ≠ [] := fun part member => (pathParts_spec member).1
  split
  next cl size =>
    refine Ends.branch (fun begins => Ends.pure ?_) fun begins => Ends.branch (fun up => Ends.pure ?_) fun notUp =>
      Ends.branch (fun empty => Ends.pure ?_) fun nonempty => Ends.pure ?_
    · -- The path is absolute and becomes the text.
      have short : path.length < cwdPathSize := by rwa [Fits, if_pos (show IsAbsolute path from begins)] at fits
      have notUp : path ≠ [0x2E, 0x2E] := by
        rintro rfl
        cases begins
      obtain ⟨there, last⟩ := ResolvesTo.leads resolves clean (dots.resolve_left notUp)
      rw [show startCluster vol path = vol.rootCluster from if_pos begins] at there
      have written := @holds_copy vol.cwdPath [] path rfl plain short
      have count : (if cwdPathSize ≤ path.length then cwdPathSize - 1 else path.length) = path.length :=
        if_neg (Nat.not_le.mpr short)
      rw [count, take_length]
      rw [nil_append, length_nil, Nat.zero_add] at written
      exact homed_moved written begins there last
    · exact homed_root (holds_root _) rfl
    · subst empty
      rw [ResolvesTo, show pathParts ([] : List UInt8).length [] = [] from rfl, follows_nil, LooksUp, if_pos rfl] at resolves
      cases resolves
      exact kept
    · obtain ⟨there, last⟩ := ResolvesTo.leads resolves clean (dots.resolve_left notUp)
      rw [show startCluster vol path = vol.cwdCluster from if_neg begins] at there
      rw [Fits, if_neg (show ¬IsAbsolute path from begins)] at fits
      have short := (fits.resolve_left nonempty).resolve_left notUp
      rw [is] at short
      have parts := pathParts_joint absolute path
      refine homed_moved (holds.append plain short nonempty) ?_ ?_ ?_
      · rw [append_assoc]
        exact absolute.append _
      · rw [parts]
        exact leads.append there
      · rwa [parts, getLast?_append_of_ne_nil _ (relative_parts nonempty begins)]
  next => exact Ends.pure kept

theorem Homed.carried {after : Nat → Mem} (homed : Homed vol disk)
    (carries : Leads vol disk vol.rootCluster (pathParts vol.cwdText.length vol.cwdText) vol.cwdCluster →
      Leads vol after vol.rootCluster (pathParts vol.cwdText.length vol.cwdText) vol.cwdCluster) : Homed vol after :=
  ⟨homed.holds, homed.absolute, carries homed.leads, homed.named⟩

theorem Tidy.homed {before after : State} {call : FatCall} (tidy : Tidy before call)
    (homed : Homed before.vol before.medium.disk) (returned : Returned before call after) :
    Homed after.vol after.medium.disk := by
  obtain ⟨fuel, ok, ran⟩ := returned
  cases call with
  | chdir path =>
    obtain ⟨⟨result, final⟩, returned, is⟩ := map_eq_some_iff.mp ran
    obtain ⟨_, rfl⟩ := Prod.mk.inj is
    exact (fatChdir_homed homed tidy).2 _ _ returned
  | mkdir path =>
    obtain ⟨text, ready⟩ := tidy
    obtain ⟨⟨result, final⟩, returned, is⟩ := map_eq_some_iff.mp ran
    obtain ⟨_, rfl⟩ := Prod.mk.inj is
    have made := (fatMkdir_ends ready path).2 _ _ returned
    exact homed.carried fun leads => leads.carried ready.faultless ready.sane ready.formed
      (made.findsDirectories ready.sane ready.formed text (ready.start path)) ⟨none, .root⟩
  | write path data =>
    obtain ⟨text, ready⟩ := tidy
    obtain ⟨⟨result, final⟩, returned, is⟩ := map_eq_some_iff.mp ran
    obtain ⟨_, rfl⟩ := Prod.mk.inj is
    have wrote := (fatWriteFile_ends ready path data).2 _ _ returned
    exact homed.carried fun leads => leads.carried ready.faultless ready.sane ready.formed
      (wrote.findsDirectories ready.sane ready.formed text) ⟨none, .root⟩
  | unlink path => exact tidy.elim
  | read path maxlen =>
    obtain ⟨⟨result, final⟩, returned, is⟩ := map_eq_some_iff.mp ran
    obtain ⟨_, rfl⟩ := Prod.mk.inj is
    rw [(fatReadFile_moves fuel path maxlen _ _ _ returned).nothing.1]
    exact homed
  | list path =>
    obtain ⟨⟨result, final⟩, returned, is⟩ := map_eq_some_iff.mp ran
    obtain ⟨_, rfl⟩ := Prod.mk.inj is
    rw [(fatList_moves fuel path _ _ _ returned).nothing.1]
    exact homed

theorem fatMount_homed {blankVol mounted : Volume} {first : Medium}
    (ran : fatMount blankVol first = some ((true, mounted), medium)) : Homed mounted medium.disk := by
  obtain ⟨base, _, _, rfl⟩ := fatMount_layout ran
  exact homed_root (holds_root _) rfl

/-- In every run of calls that respect the limits of the text, the path shown resolves to the
current directory. -/
theorem cwd_path_named {blankVol : Volume} {first : Medium} {start final : State} {calls : List FatCall}
    (mounted : fatMount blankVol first = some ((true, start.vol), start.medium))
    (run : Run (fun before call after => Returned before call after ∧ Tidy before call) start calls final) :
    CwdNamed final := by
  have homed : Homed final.vol final.medium.disk :=
    @Run.preserves State FatCall _ (fun state => Homed state.vol state.medium.disk)
      (fun _ _ _ holds step => step.2.homed holds step.1) _ _ _ run (fatMount_homed mounted)
  exact homed.cwdNamed

theorem cwd_path_named_in_a : ∃ final, Run (fun before call after => Returned before call after ∧ Tidy before call)
    ⟨sampleVolume 2 2, emptyMedium 2⟩ [.mkdir [0x41], .chdir [0x41]] final ∧ final.vol.cwdCluster = 3 ∧ CwdNamed final := by
  have ran : ((fatMkdir (sampleVolume 2 2) 200 [0x41] (emptyMedium 2)).bind fun made =>
      (fatChdir (sampleVolume 2 2) 200 [0x41] made.2).map fun moved => (made.1, moved.1.1, moved.1.2.cwdCluster)) =
      some (true, true, 3) := by decide +kernel
  obtain ⟨⟨made, middle⟩, first, rest⟩ := bind_eq_some_iff.mp ran
  obtain ⟨⟨⟨moved, vol⟩, final⟩, second, is⟩ := map_eq_some_iff.mp rest
  obtain ⟨rfl, others⟩ := Prod.mk.inj is
  obtain ⟨rfl, there⟩ := Prod.mk.inj others
  have last : ∀ name, (pathParts [(0x41 : UInt8)].length [0x41]).getLast? = some name → ¬IsDots name := by
    rintro name is
    rw [show (pathParts [(0x41 : UInt8)].length [0x41]).getLast? = some [0x41] by decide] at is
    rw [← Option.some.inj is, IsDots]
    decide
  have fits : Fits (sampleVolume 2 2) [0x41] := by
    unfold Fits
    decide +kernel
  have run : Run (fun before call after => Returned before call after ∧ Tidy before call)
      ⟨sampleVolume 2 2, emptyMedium 2⟩ [.mkdir [0x41], .chdir [0x41]] ⟨vol, final⟩ :=
    .next ⟨⟨200, true, by rw [FatCall.run, first]; rfl⟩, by decide +kernel, emptyMedium_consistent.ready⟩
      (.next ⟨⟨200, true, by rw [FatCall.run, second]; rfl⟩, by decide +kernel, fits,
        .inr fun name is dots => absurd dots (last name is)⟩ (.done _))
  exact ⟨_, run, there, cwd_path_named emptyDisk_mounts.2 run⟩

/-- 127 slashes before `/A`: only the slashes are kept. -/
theorem cwd_path_cut : ∃ final, fatMount unmounted ⟨emptyDisk 2, blank, []⟩ = some ((true, sampleVolume 2 2), emptyMedium 2) ∧
    Run Returned ⟨sampleVolume 2 2, emptyMedium 2⟩ [.mkdir [0x41], .chdir (List.replicate 128 0x2F ++ [0x41])] final ∧
      ¬CwdNamed final := by
  have ran : ((fatMkdir (sampleVolume 2 2) 200 [0x41] (emptyMedium 2)).bind fun made =>
      (fatChdir (sampleVolume 2 2) 200 (List.replicate 128 0x2F ++ [0x41]) made.2).map fun moved =>
        (moved.1.2.cwdCluster, moved.1.2.rootCluster, moved.1.2.cwdText)) =
      some (3, 2, List.replicate 127 0x2F) := by decide +kernel
  obtain ⟨⟨made, middle⟩, first, rest⟩ := bind_eq_some_iff.mp ran
  obtain ⟨⟨⟨moved, vol⟩, final⟩, second, is⟩ := map_eq_some_iff.mp rest
  obtain ⟨there, others⟩ := Prod.mk.inj is
  obtain ⟨root, text⟩ := Prod.mk.inj others
  refine ⟨⟨vol, final⟩, emptyDisk_mounts.2, .next ⟨200, made, by rw [FatCall.run, first]; rfl⟩
    (.next ⟨200, moved, by rw [FatCall.run, second]; rfl⟩ (.done _)), fun named => ?_⟩
  obtain ⟨size, answers⟩ := named.resolves
  have text : vol.cwdText = List.replicate 127 0x2F := text
  have shown : fatGetcwd vol cwdPathSize = vol.cwdText := fatGetcwd_eq (by rw [text, length_replicate]; decide)
  rw [shown] at answers
  have resolves := resolveFull_answers.mp answers
  have start : startCluster vol (List.replicate 127 0x2F) = vol.rootCluster := if_pos (by decide)
  rw [text, start, ResolvesTo,
    show pathParts (List.replicate 127 (0x2F : UInt8)).length (List.replicate 127 0x2F) = [] by decide +kernel,
    follows_nil, LooksUp,
    if_pos rfl] at resolves
  have same : vol.cwdCluster = vol.rootCluster := (Prod.mk.inj (Option.some.inj resolves)).1
  rw [show vol.cwdCluster = 3 from there, show vol.rootCluster = 2 from root] at same
  cases same

end GWKernel.Fat
