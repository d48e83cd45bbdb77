import GWKernel.Proofs.FatMoves

/-! The directory code on a view: a scan of a chain is a fold over its slots. Path resolution
walks along the tree. -/

namespace GWKernel.Fat
open Lib List

variable {vol : Volume} {v : View} {enough : Prop} {medium : Medium}

def posLba (vol : Volume) (pos : Pos) : Nat := sectorLba vol pos.cluster pos.sector

section Scan

variable {α ρ : Type} (visit : Nat → Nat → Mem → α → Except ρ α)

/-- The loops over slots, without the disk. -/
def View.scan (vol : Volume) (v : View) (places : List Pos) (acc : α) : Except ρ α :=
  places.foldlM (fun acc pos => visit (posLba vol pos) (32 * pos.index) (v.slot pos) acc) acc

def conclude (ended : α → ρ) : Except ρ α → ρ
  | .error result => result
  | .ok acc => ended acc

theorem View.scan_append (v : View) (first second : List Pos) (acc : α) :
    v.scan visit vol (first ++ second) acc = v.scan visit vol first acc >>= v.scan visit vol second :=
  foldlM_append

variable (faultless : Faultless vol) (sane : Sane vol) (failed ended : α → ρ)
include faultless sane

theorem scanSectors_ends {c : Nat} (inside : Inside vol c) (sectors : List Nat)
    (small : ∀ s ∈ sectors, s < vol.secPerCluster) (acc : α) :
    Ends enough (scanSectors vol visit failed c sectors acc) medium fun result final =>
      final.disk = medium.disk ∧ result = (view vol medium.disk).scan visit vol
        (sectors.flatMap fun s => (List.range 16).map (Pos.mk c s)) acc := by
  induction sectors generalizing medium acc with
  | nil => exact Ends.pure ⟨rfl, rfl⟩
  | cons s rest ih =>
    have here := small s mem_cons_self
    have sector : scanSector visit (u32 (clusterToLba vol c + s)) (medium.disk (u32 (clusterToLba vol c + s))) acc =
        (view vol medium.disk).scan visit vol ((List.range 16).map (Pos.mk c s)) acc := by
      rw [sane.lba_eq inside here]
      simp only [scanSector, slotOffsets, View.scan, foldlM_map, View.slot, view, posLba, inside, here, and_self,
        if_true]
    unfold scanSectors
    refine read_then faultless (Ends.get_then ?_)
    simp only [flatMap_cons, View.scan_append, sector]
    cases (view vol medium.disk).scan visit vol ((List.range 16).map (Pos.mk c s)) acc with
    | error result => exact Ends.pure ⟨rfl, rfl⟩
    | ok acc =>
      exact (ih (fun t member => small t (mem_cons_of_mem _ member)) acc).imp fun result final scanned => scanned

theorem scanChain_ends {fuel start : Nat} {cs : List Nat} (links : (view vol medium.disk).Links vol start cs) (acc : α) :
    Ends (cs.length < fuel) (scanChain vol visit failed ended fuel start acc) medium fun result final =>
      final.disk = medium.disk ∧
        result = conclude ended ((view vol medium.disk).scan visit vol (slots vol cs) acc) := by
  induction cs generalizing fuel start medium acc with
  | nil =>
    cases fuel with
    | zero => exact Ends.exhausted (Nat.not_lt_zero _)
    | succ fuel =>
      cases links with
      | done ends =>
        unfold scanChain
        simp only [not_inChain_of_isEnd ends, if_false]
        exact Ends.pure ⟨rfl, rfl⟩
  | cons c rest ih =>
    cases fuel with
    | zero => exact Ends.exhausted (Nat.not_lt_zero _)
    | succ fuel =>
      cases links with
      | link inside tail =>
        unfold scanChain
        simp only [sane.inChain inside, if_true]
        refine (scanSectors_ends visit faultless sane failed inside (List.range vol.secPerCluster)
          (fun s member => mem_range.mp member) acc).bind fun result middle scanned => ?_
        have split : (view vol medium.disk).scan visit vol (slots vol (c :: rest)) acc =
            (view vol medium.disk).scan visit vol (clusterSlots vol c) acc >>=
              (view vol medium.disk).scan visit vol (slots vol rest) := View.scan_append ..
        rw [split, scanned.2]
        change Ends _ (match (view vol medium.disk).scan visit vol (clusterSlots vol c) acc with
          | .error result => _ | .ok acc => _) _ _
        cases (view vol medium.disk).scan visit vol (clusterSlots vol c) acc with
        | error result => exact Ends.pure ⟨scanned.1, rfl⟩
        | ok acc =>
          refine (fatGet_ends faultless sane inside.2).bind fun next current got => ?_
          rw [scanned.1] at got
          have same : view vol current.disk = view vol medium.disk := by rw [got.2]
          rw [got.1]
          refine (ih (same ▸ tail) acc).mono (fun long => by simpa using long) fun result final walked => ?_
          rw [same, got.2] at walked
          exact walked

end Scan

def foundOf (vol : Volume) (v : View) (pos : Pos) : Found := foundAt (posLba vol pos) (32 * pos.index) (v.slot pos)

theorem scan_findVisit (v : View) (name : List UInt8) (places : List Pos) :
    conclude (fun _ => none) (v.scan (findVisit name) vol places ()) =
      ((places.takeWhile fun pos => v.slot pos 0 != 0).find? fun pos =>
        !entryHidden (v.slot pos) && eq83 name (v.slot pos)).map (foundOf vol v) := by
  induction places with
  | nil => rfl
  | cons pos rest ih =>
    simp only [View.scan, foldlM_cons] at ih ⊢
    by_cases unused : v.slot pos 0 = 0
    · simp [findVisit, unused, bind, Except.bind, conclude]
    by_cases hidden : entryHidden (v.slot pos) = true
    · simpa [findVisit, unused, hidden, bind, Except.bind, conclude] using ih
    by_cases matches_ : eq83 name (v.slot pos) = true
    · simp [findVisit, unused, hidden, matches_, bind, Except.bind, conclude, foundOf]
    · simpa [findVisit, unused, hidden, matches_, bind, Except.bind, conclude] using ih

theorem dirFind_ends (faultless : Faultless vol) (sane : Sane vol) {fuel d : Nat} {ds : List Nat} (name : List UInt8)
    (links : (view vol medium.disk).Links vol d ds) :
    Ends (ds.length < fuel) (dirFind vol fuel d name) medium fun result final =>
      final.disk = medium.disk ∧
        result = ((view vol medium.disk).lookup vol name ds).map (foundOf vol (view vol medium.disk)) := by
  refine (scanChain_ends (findVisit name) faultless sane _ _ links ()).imp fun result final scanned => ⟨scanned.1, ?_⟩
  rw [scanned.2]
  exact scan_findVisit (view vol medium.disk) name (slots vol ds)

def View.isFree (v : View) (pos : Pos) : Bool := v.slot pos 0 == 0 || v.slot pos 0 == 0xE5

def slotOf (vol : Volume) (pos : Pos) : Nat × Nat := (posLba vol pos, 32 * pos.index)

theorem scan_slotVisit (v : View) (places : List Pos) :
    v.scan slotVisit vol places () =
      ((places.find? v.isFree).map fun pos => Except.error (some (slotOf vol pos))).getD (.ok ()) := by
  induction places with
  | nil => rfl
  | cons pos rest ih =>
    simp only [View.scan, foldlM_cons] at ih ⊢
    by_cases free : v.slot pos 0 = 0 ∨ v.slot pos 0 = 0xE5
    · have yes : v.isFree pos = true := by simpa [View.isFree] using free
      simp [slotVisit, free, yes, bind, Except.bind, slotOf]
    · have no : v.isFree pos = false := by simpa [View.isFree] using free
      simpa [slotVisit, free, no, bind, Except.bind] using ih

/-- What `dir_alloc_slot` does for the directory with chain `cs`. -/
inductive SlotFound (vol : Volume) (v : View) (cs : List Nat) : Option Pos → View → Prop where
  | within {pos : Pos} (found : (slots vol cs).find? v.isFree = some pos) : SlotFound vol v cs (some pos) v
  | full (noFree : (slots vol cs).find? v.isFree = none) (exhausted : ∀ c ∈ candidates vol, v.fat c ≠ 0) :
      SlotFound vol v cs none v
  | grown {before : List Nat} {last nc : Nat} (noFree : (slots vol cs).find? v.isFree = none)
      (chain : cs = before ++ [last]) (candidate : nc ∈ candidates vol) (free : v.fat nc = 0) :
      SlotFound vol v cs (some ⟨nc, 0, 0⟩) (v.grow last nc)

def View.setSectors (v : View) (c : Nat) (sectors : List Nat) (mem : Mem) : View :=
  { v with data := fun other t => if other = c ∧ t ∈ sectors then mem else v.data other t }

theorem clusterSlots_head (sane : Sane vol) (c : Nat) : ∃ rest, clusterSlots vol c = ⟨c, 0, 0⟩ :: rest := by
  obtain ⟨count, size⟩ := Nat.exists_eq_add_of_lt sane.hasSectors
  refine ⟨(List.range' 1 15).map (Pos.mk c 0) ++
    ((List.range count).map Nat.succ).flatMap fun s => (List.range 16).map (Pos.mk c s), ?_⟩
  rw [clusterSlots, size, Nat.zero_add, range_succ_eq_map (n := count), flatMap_cons]
  rfl

theorem inside_of_candidate {c : Nat} (candidate : c ∈ candidates vol) : Inside vol c := by
  have bounds := mem_range'_1.mp candidate
  exact ⟨by omega, by omega⟩

section Alloc

variable (faultless : Faultless vol) (sane : Sane vol)
include faultless sane

theorem writeEach_ends {c : Nat} (inside : Inside vol c) (sectors : List Nat)
    (small : ∀ s ∈ sectors, s < vol.secPerCluster) :
    Ends enough (writeEach vol c sectors) medium fun ok final =>
      ok = true ∧ view vol final.disk = (view vol medium.disk).setSectors c sectors medium.sector := by
  induction sectors generalizing medium with
  | nil => exact Ends.pure ⟨rfl, by simp [View.setSectors]⟩
  | cons s rest ih =>
    unfold writeEach
    refine write_then faultless sane inside (small s mem_cons_self) fun middle written buffer => ?_
    refine (ih fun t member => small t (mem_cons_of_mem _ member)).imp fun ok final wrote => ⟨wrote.1, ?_⟩
    rw [wrote.2, written, buffer]
    ext1
    · rfl
    · funext other t
      simp only [View.setSectors, View.setSector, mem_cons]
      by_cases here : other = c
      · by_cases first : t = s <;> by_cases later : t ∈ rest <;> simp [here, first, later]
      · simp [here]

theorem scanSlots_ends {c : Nat} (inside : Inside vol c) :
    Ends enough (scanSectors vol slotVisit (fun _ => none) c (List.range vol.secPerCluster) ()) medium
      fun result final => final.disk = medium.disk ∧
        result = (((clusterSlots vol c).find? (view vol medium.disk).isFree).map fun pos =>
          Except.error (some (slotOf vol pos))).getD (.ok ()) := by
  refine (scanSectors_ends slotVisit faultless sane _ inside _ (fun s member => mem_range.mp member) ()).imp
    fun result final scanned => ⟨scanned.1, ?_⟩
  rw [scanned.2]
  exact scan_slotVisit (view vol medium.disk) (clusterSlots vol c)

theorem extendChain_ends {fuel last nc : Nat} (inside : Inside vol last) (candidate : nc ∈ candidates vol)
    (before : View) (marked : view vol medium.disk = before.setFat nc 0x0FFFFFFF) (other : nc ≠ last)
    (blanks : ∀ s, vol.secPerCluster ≤ s → before.data nc s = blank) :
    Ends (0 < fuel) (do
      if ← fatSet vol last nc then do
        editSector fun _ => blank
        if ← writeEach vol nc (List.range vol.secPerCluster) then dirAllocSlot vol fuel nc else pure none
      else pure none) medium fun result final =>
        result = some (slotOf vol ⟨nc, 0, 0⟩) ∧ view vol final.disk = before.grow last nc := by
  have new := inside_of_candidate candidate
  have narrow : nc < 2 ^ 28 := by
    have marks := sane.belowMarks
    have below := new.2
    omega
  refine (fatSet_ends faultless sane inside.2 narrow).bind fun ok linked set => ?_
  simp only [set.1, if_true]
  refine Ends.modify_then ?_
  refine (writeEach_ends faultless sane new (List.range vol.secPerCluster)
    fun s member => mem_range.mp member).bind fun ok final wrote => ?_
  simp only [wrote.1, if_true]
  have grown : view vol final.disk = before.grow last nc := by
    rw [wrote.2]
    change (view vol linked.disk).setSectors nc (List.range vol.secPerCluster) blank = _
    rw [set.2, marked]
    ext1
    · funext c
      simp only [View.setSectors, View.setFat, View.grow]
    · funext c s
      simp only [View.setSectors, View.setFat, View.grow, mem_range]
      by_cases here : c = nc
      · subst here
        by_cases below : s < vol.secPerCluster
        · simp [below]
        · simp [below, blanks s (by omega)]
      · simp [here]
  cases fuel with
  | zero => exact Ends.exhausted (Nat.not_lt_zero _)
  | succ fuel =>
    unfold dirAllocSlot
    refine (scanSlots_ends faultless sane new).bind fun result ended scanned => ?_
    have first : (clusterSlots vol nc).find? (view vol final.disk).isFree = some ⟨nc, 0, 0⟩ := by
      obtain ⟨rest, head⟩ := clusterSlots_head sane nc
      have free : (view vol final.disk).isFree ⟨nc, 0, 0⟩ = true := by
        simp [grown, View.isFree, View.slot, View.grow, entryAt, blank]
      rw [head, find?_cons_of_pos free]
    rw [scanned.2, first]
    exact Ends.pure ⟨rfl, by rw [scanned.1, grown]⟩

theorem dirAllocSlot_ends {fuel cur : Nat} {cs : List Nat} (links : (view vol medium.disk).Links vol cur cs)
    (nonempty : cs ≠ []) :
    Ends (cs.length + 1 < fuel) (dirAllocSlot vol fuel cur) medium fun result final =>
      ∃ found, result = found.map (slotOf vol) ∧
        SlotFound vol (view vol medium.disk) cs found (view vol final.disk) := by
  induction cs generalizing fuel cur medium with
  | nil => exact absurd rfl nonempty
  | cons c rest ih =>
    cases fuel with
    | zero => exact Ends.exhausted (Nat.not_lt_zero _)
    | succ fuel =>
      have whole := links
      cases links with
      | link inside tail =>
        have append : slots vol (c :: rest) = clusterSlots vol c ++ slots vol rest := rfl
        unfold dirAllocSlot
        refine (scanSlots_ends faultless sane inside).bind fun result middle scanned => ?_
        have same : view vol middle.disk = view vol medium.disk := by rw [scanned.1]
        rw [scanned.2]
        cases search : (clusterSlots vol c).find? (view vol medium.disk).isFree with
        | some pos =>
          refine Ends.pure ?_
          rw [same]
          exact ⟨some pos, rfl, .within (by rw [append, find?_append, search, Option.some_or])⟩
        | none =>
          refine (fatGet_ends faultless sane inside.2).bind fun n current got => ?_
          have still : view vol current.disk = view vol medium.disk := by rw [got.2, same]
          rw [same] at got
          cases rest with
          | nil =>
            have noFree : (slots vol [c]).find? (view vol medium.disk).isFree = none := by
              rw [append, find?_append, search]
              rfl
            have ends : IsEnd n := by
              cases tail with
              | done ends => rwa [got.1]
            simp only [show 0x0FFFFFF8 ≤ n from ends, if_true]
            refine (fatAllocCluster_ends faultless sane).bind fun nc marked outcome => ?_
            rw [still] at outcome
            rcases outcome with ⟨zero, unchanged, exhausted⟩ | ⟨candidate, free, taken⟩
            · simp only [zero, if_true]
              exact Ends.pure ⟨none, rfl, by rw [unchanged]; exact .full noFree exhausted⟩
            · have positive : nc ≠ 0 := by
                have low := (inside_of_candidate candidate).1
                omega
              have other : nc ≠ c := fun same => whole.fat_ne_zero (mem_cons_self) (same ▸ free)
              simp only [positive, if_false]
              refine (extendChain_ends faultless sane inside candidate _ taken other ?_).mono ?_ ?_
              · intro s high
                simp [view, show ¬s < vol.secPerCluster by omega]
                rfl
              · intro long
                simp only [length_singleton] at long
                omega
              · intro result final extended
                rw [extended.1, extended.2]
                exact ⟨_, rfl, @SlotFound.grown vol _ _ [] c nc noFree rfl candidate free⟩
          | cons next more =>
            have inner : ¬0x0FFFFFF8 ≤ n := by
              cases tail with
              | link valid _ =>
                rw [got.1]
                exact sane.exclusive _ valid
            simp only [inner, if_false]
            rw [got.1]
            refine (ih (still ▸ tail) (by simp)).mono (fun long => by simpa using long) fun result final outcome => ?_
            obtain ⟨slot, named, found⟩ := outcome
            rw [still] at found
            refine ⟨slot, named, ?_⟩
            have skip : (slots vol (c :: next :: more)).find? (view vol medium.disk).isFree =
                (slots vol (next :: more)).find? (view vol medium.disk).isFree := by
              rw [append, find?_append, search, Option.none_or]
            generalize view vol final.disk = w at found ⊢
            cases found with
            | within found => exact .within (skip.trans found)
            | full noFree exhausted => exact .full (skip.trans noFree) exhausted
            | @grown before last nc noFree chain candidate free =>
              exact @SlotFound.grown vol _ _ (c :: before) last nc (skip.trans noFree) (by rw [chain]; rfl) candidate free

end Alloc

/-- `resolve_parent` ends in the directory `parent` with the last piece `name`. -/
inductive Walk (vol : Volume) (v : View) : Nat → List (List UInt8) → Nat → List UInt8 → Prop where
  | done {cl : Nat} : Walk vol v cl [] cl []
  | last {cl : Nat} {part : List UInt8} : Walk vol v cl [part] cl part
  | stay {cl parent : Nat} {next name : List UInt8} {rest : List (List UInt8)}
      (tail : Walk vol v cl (next :: rest) parent name) : Walk vol v cl ([0x2E] :: next :: rest) parent name
  | top {cl parent : Nat} {next name : List UInt8} {rest : List (List UInt8)}
      (tail : Walk vol v vol.rootCluster (next :: rest) parent name) :
      Walk vol v cl ([0x2E, 0x2E] :: next :: rest) parent name
  | down {cl parent : Nat} {cs : List Nat} {pos : Pos} {part next name : List UInt8} {rest : List (List UInt8)}
      (notDot : part ≠ [0x2E]) (notUp : part ≠ [0x2E, 0x2E]) (links : v.Links vol cl cs)
      (found : v.lookup vol part cs = some pos) (isDir : entryIsDir (v.slot pos) = true)
      (tail : Walk vol v (entryCluster (v.slot pos)) (next :: rest) parent name) :
      Walk vol v cl (part :: next :: rest) parent name

theorem upper_ne {char other : UInt8} (outside : ¬(0x61 ≤ other + 32 ∧ other + 32 ≤ 0x7A)) (differ : char ≠ other) :
    upper char ≠ other := by
  unfold upper
  split
  next lower =>
    rintro rfl
    rw [UInt8.sub_add_cancel] at outside
    exact outside lower
  next => exact differ

theorem to83_head (name : List UInt8) : (to83 name).head? ≠ some 0x2E := by
  simp only [to83]
  cases first : (name.takeWhile fun char => char != 0x2E && !isSeparator char).take 8 with
  | nil => simp [padTo]
  | cons char rest =>
    have member : char ∈ name.takeWhile fun char => char != 0x2E && !isSeparator char :=
      mem_of_mem_take (first ▸ mem_cons_self)
    have kept := mem_takeWhile_imp member
    simp only [Bool.and_eq_true, bne_iff_ne] at kept
    simpa [padTo] using upper_ne (by decide) kept.1

variable {name : List UInt8} {ds : List Nat} {pos : Pos} {start : Nat}

theorem eq83_iff {entry : Mem} : eq83 name entry = true ↔ to83 name = entryName entry := by
  simp [eq83, entryName]

theorem live_of_eq83 {name : List UInt8} {entry : Mem} (visible : entryHidden entry = false)
    (same : eq83 name entry = true) : Live entry := by
  refine ⟨visible, ?_⟩
  have head := to83_head name
  rw [eq83_iff.mp same] at head
  have first : (entryName entry).head? = some (entry 0) := by
    simp [entryName, Mem.slice, range_succ_eq_map]
  have plain : entry 0 ≠ 0x2E := fun dot => head (first.trans (congrArg some dot))
  simp [entryDot, plain]

theorem lookup_some (found : v.lookup vol name ds = some pos) :
    pos ∈ v.listing vol ds ∧ Live (v.slot pos) ∧ to83 name = entryName (v.slot pos) := by
  have chosen := find?_some found
  simp only [Bool.and_eq_true, Bool.not_eq_true'] at chosen
  exact ⟨mem_of_find?_eq_some found, live_of_eq83 chosen.1 chosen.2, eq83_iff.mp chosen.2⟩

theorem lookup_none (missing : v.lookup vol name ds = none) (listed : pos ∈ v.listing vol ds)
    (visible : entryHidden (v.slot pos) = false) : entryName (v.slot pos) ≠ to83 name := by
  have failed := find?_eq_none.mp missing pos listed
  intro same
  exact failed (by simp [visible, eq83_iff.mpr same.symm])

def View.Matches (v : View) (name : List UInt8) (pos : Pos) : Prop :=
  entryHidden (v.slot pos) = false ∧ to83 name = entryName (v.slot pos)

theorem lookup_eq_some : v.lookup vol name ds = some pos ↔
    ∃ before after, slots vol ds = before ++ pos :: after ∧ v.slot pos 0 ≠ 0 ∧ v.Matches name pos ∧
      ∀ q ∈ before, v.slot q 0 ≠ 0 ∧ ¬v.Matches name q := by
  have test : ∀ q, (!entryHidden (v.slot q) && eq83 name (v.slot q)) = true ↔ v.Matches name q := fun q => by
    simp [View.Matches, eq83_iff]
  constructor
  · intro found
    obtain ⟨chosen, before, after, split, earlier⟩ := find?_eq_some_iff_append.mp found
    have rest := takeWhile_append_dropWhile (p := fun q => v.slot q 0 != 0) (l := slots vol ds)
    rw [← View.listing, split, append_assoc, cons_append] at rest
    have listed : pos ∈ v.listing vol ds := by simp [split]
    refine ⟨before, _, rest.symm, View.first_ne_zero_of_listing listed, (test pos).mp chosen, fun q member => ?_⟩
    have also : q ∈ v.listing vol ds := by simp [split, member]
    have missed := earlier q member
    exact ⟨View.first_ne_zero_of_listing also, fun matched => by simp [(test q).mpr matched] at missed⟩
  · rintro ⟨before, after, split, used, matched, earlier⟩
    refine find?_eq_some_iff_append.mpr ⟨(test pos).mpr matched, before,
      after.takeWhile fun q => v.slot q 0 != 0, ?_, fun q member => ?_⟩
    · rw [View.listing, split, takeWhile_append_of_pos fun q member => by simpa using (earlier q member).1,
        takeWhile_cons_of_pos (by simpa using used)]
    · have missed := (earlier q member).2
      rw [← test q, Bool.not_eq_true] at missed
      simp only [missed, Bool.not_false]

theorem Owns.found {owner : Option Pos} {d : Nat} (owns : Owns vol v owner true d) (links : v.Links vol d ds)
    (found : v.lookup vol name ds = some pos) :
    Owns vol v (some pos) (entryIsDir (v.slot pos)) (entryCluster (v.slot pos)) := by
  obtain ⟨listed, live, _⟩ := lookup_some found
  exact .entry owns links listed live

theorem Walk.owns {parent : Nat} {parts : List (List UInt8)} (walk : Walk vol v start parts parent name)
    (begins : ∃ owner, Owns vol v owner true start) : ∃ owner, Owns vol v owner true parent := by
  induction walk with
  | done => exact begins
  | last => exact begins
  | stay _ ih => exact ih begins
  | top _ ih => exact ih ⟨none, .root⟩
  | down _ _ links found isDir _ ih =>
    obtain ⟨owner, owns⟩ := begins
    have child := owns.found links found
    rw [isDir] at child
    exact ih ⟨_, child⟩

theorem Walk.unique (sane : Sane vol) {parent other : Nat} {parts : List (List UInt8)} {leaf : List UInt8}
    (walk : Walk vol v start parts parent name) (again : Walk vol v start parts other leaf) :
    parent = other ∧ name = leaf := by
  induction walk with
  | done =>
    cases again
    exact ⟨rfl, rfl⟩
  | last =>
    cases again
    exact ⟨rfl, rfl⟩
  | stay _ ih =>
    cases again with
    | stay tail => exact ih tail
    | down notDot _ _ _ _ _ => exact absurd rfl notDot
  | top _ ih =>
    cases again with
    | top tail => exact ih tail
    | down _ notUp _ _ _ _ => exact absurd rfl notUp
  | down notDot notUp links found _ _ ih =>
    cases again with
    | stay _ => exact absurd rfl notDot
    | top _ => exact absurd rfl notUp
    | down _ _ relinks refound _ tail =>
      rw [relinks.unique sane.exclusive links, found] at refound
      cases refound
      exact ih tail

theorem walkParts_ends (faultless : Faultless vol) (sane : Sane vol) (formed : Formed vol (view vol medium.disk))
    {fuel : Nat} (parts : List (List UInt8)) (begins : ∃ owner, Owns vol (view vol medium.disk) owner true start) :
    Ends (vol.totalClusters < fuel) (walkParts vol fuel start parts) medium fun result final =>
      final.disk = medium.disk ∧
        ∀ parent name, result = some (parent, name) ↔ Walk vol (view vol medium.disk) start parts parent name := by
  induction parts generalizing start medium with
  | nil =>
    refine Ends.pure ⟨rfl, fun parent name => ⟨fun same => ?_, fun walk => ?_⟩⟩
    · cases same
      exact .done
    · cases walk
      rfl
  | cons part rest ih =>
    cases rest with
    | nil =>
      refine Ends.pure ⟨rfl, fun parent name => ⟨fun same => ?_, fun walk => ?_⟩⟩
      · cases same
        exact .last
      · cases walk
        rfl
    | cons next rest =>
      unfold walkParts
      refine Ends.branch (fun dot => ?_) fun notDot => Ends.branch (fun up => ?_) fun notUp => ?_
      · subst dot
        refine (ih formed begins).imp fun result final walked => ⟨walked.1, fun parent name => ?_⟩
        rw [walked.2]
        refine ⟨fun walk => .stay walk, fun walk => ?_⟩
        cases walk with
        | stay tail => exact tail
        | down notDot _ _ _ _ _ => exact absurd rfl notDot
      · subst up
        refine (ih formed ⟨none, .root⟩).imp fun result final walked => ⟨walked.1, fun parent name => ?_⟩
        rw [walked.2]
        refine ⟨fun walk => .top walk, fun walk => ?_⟩
        cases walk with
        | top tail => exact tail
        | down _ notUp _ _ _ _ => exact absurd rfl notUp
      · obtain ⟨owner, owns⟩ := begins
        obtain ⟨_, ds, links⟩ := formed.dir_links owns
        have length := links.length_le sane
        refine ((dirFind_ends faultless sane part links).mono (fun long => by omega) fun _ _ found => found).bind
          fun result middle found => ?_
        have same : view vol middle.disk = view vol medium.disk := by rw [found.1]
        -- Any walk from here goes through the entry that was found.
        have only : ∀ {parent name}, Walk vol (view vol medium.disk) start (part :: next :: rest) parent name →
            ∃ pos, (view vol medium.disk).lookup vol part ds = some pos ∧
              entryIsDir ((view vol medium.disk).slot pos) = true ∧
              Walk vol (view vol medium.disk) (entryCluster ((view vol medium.disk).slot pos)) (next :: rest)
                parent name := by
          intro parent name walk
          cases walk with
          | stay _ => exact absurd rfl notDot
          | top _ => exact absurd rfl notUp
          | down _ _ relinks found isDir tail =>
            rw [relinks.unique sane.exclusive links] at found
            exact ⟨_, found, isDir, tail⟩
        rw [found.2]
        cases search : (view vol medium.disk).lookup vol part ds with
        | none =>
          refine Ends.pure ⟨found.1, fun parent name => ⟨fun same => (nomatch same), fun walk => ?_⟩⟩
          obtain ⟨pos, absurdly, _⟩ := only walk
          rw [search] at absurdly
          cases absurdly
        | some pos =>
          change Ends _ (if entryIsDir ((view vol medium.disk).slot pos) = true
            then walkParts vol fuel (entryCluster ((view vol medium.disk).slot pos)) (next :: rest)
            else Pure.pure none) _ _
          refine Ends.branch (fun isDir => ?_) fun isFile => ?_
          · have child := owns.found links search
            rw [isDir] at child
            refine (ih (same ▸ formed) ⟨_, by rw [same]; exact child⟩).imp fun result final walked => ?_
            rw [same, found.1] at walked
            refine ⟨walked.1, fun parent name => ?_⟩
            rw [walked.2]
            refine ⟨fun walk => .down notDot notUp links search isDir walk, fun walk => ?_⟩
            obtain ⟨again, there, _, tail⟩ := only walk
            rw [search] at there
            cases there
            exact tail
          · refine Ends.pure ⟨found.1, fun parent name => ⟨fun same => (nomatch same), fun walk => ?_⟩⟩
            obtain ⟨again, there, isDir, _⟩ := only walk
            rw [search] at there
            cases there
            exact absurd isDir isFile

end GWKernel.Fat
