import GWKernel.Elf

/-! What `elf_load` reads and writes. The second loop is described round by round, since a segment
may land on the headers of the later ones; when none does, by the headers of the file. -/

namespace GWKernel.Elf
open Lib List

/-- `place` is one of the `size` addresses from `start` on, which wrap at 2^64. -/
def Touches (start size place : Nat) : Prop := ∃ offset < size, place = u64 (start + offset)

variable {start place : Nat} {ph : Phdr} {first second : Mem} {address : Nat} {phdrs : List Phdr}

theorem Touches.head {size : Nat} (more : 0 < size) : Touches start size (u64 start) := ⟨0, more, by simp⟩

theorem Touches.tail {size : Nat} (touched : Touches (start + 1) size place) : Touches start (size + 1) place := by
  obtain ⟨offset, inside, is⟩ := touched
  exact ⟨offset + 1, by omega, by rw [is]; congr 1; omega⟩

theorem Touches.mono {size larger : Nat} (touched : Touches start size place) (le : size ≤ larger) :
    Touches start larger place := by
  obtain ⟨offset, inside, is⟩ := touched
  exact ⟨offset, by omega, is⟩

theorem memsetL_other (byte : UInt8) {count dst : Nat} (mem : Mem) (missed : ¬Touches dst count place) :
    memsetL byte count dst mem place = mem place := by
  induction count generalizing dst mem with
  | zero => rfl
  | succ count ih =>
    rw [memsetL, ih _ fun touched => missed touched.tail]
    exact if_neg fun (same : place = u64 dst) => missed (same ▸ Touches.head (by omega))

theorem memcpyL_other {count dst src : Nat} (mem : Mem) (missed : ¬Touches dst count place) :
    memcpyL count dst src mem place = mem place := by
  induction count generalizing dst src mem with
  | zero => rfl
  | succ count ih =>
    rw [memcpyL, ih _ fun touched => missed touched.tail]
    exact if_neg fun (same : place = u64 dst) => missed (same ▸ Touches.head (by omega))

def placed (data : Nat) (mem : Mem) (ph : Phdr) : Mem :=
  memcpyL ph.filesz ph.vaddr (u64 (data + ph.offset)) (memsetL 0 ph.memsz ph.vaddr mem)

def Phdr.Covers (ph : Phdr) (place : Nat) : Prop := Touches ph.vaddr (max ph.memsz ph.filesz) place

theorem placed_other (data : Nat) (mem : Mem) (missed : ¬ph.Covers place) : placed data mem ph place = mem place := by
  rw [placed, memcpyL_other _ fun touched => missed (touched.mono (by omega)),
    memsetL_other _ _ fun touched => missed (touched.mono (by omega))]

theorem field_congr {width : Nat} (same : ∀ place, Touches address width place → first place = second place) :
    field first address width = field second address width := by
  refine Mem.Agree.le_eq fun other above below => same _ ⟨other - address, by omega, ?_⟩
  congr 1
  omega

theorem field_part {width : Nat} (same : ∀ place, Touches address width place → first place = second place)
    (offset part : Nat) (inside : offset + part ≤ width) :
    field first (address + offset) part = field second (address + offset) part := by
  refine field_congr fun place touched => same place ?_
  obtain ⟨index, small, is⟩ := touched
  exact ⟨offset + index, by omega, by rw [is, Nat.add_assoc]⟩

theorem ehdrAt_congr {data : Nat} (same : ∀ place, Touches data sizeofEhdr place → first place = second place) :
    ehdrAt first data = ehdrAt second data := by
  have part := field_part same
  simp only [sizeofEhdr] at part
  simp only [ehdrAt, part 4 1 (by omega), part 16 2 (by omega), part 18 2 (by omega), part 24 8 (by omega),
    part 32 8 (by omega), part 54 2 (by omega), part 56 2 (by omega), Ehdr.mk.injEq, and_true]
  exact part 0 4 (by omega)

theorem phdrAt_congr (same : ∀ place, Touches address sizeofPhdr place → first place = second place) :
    phdrAt first address = phdrAt second address := by
  have part := field_part same
  simp only [sizeofPhdr] at part
  simp only [phdrAt, part 8 8 (by omega), part 16 8 (by omega), part 32 8 (by omega), part 40 8 (by omega),
    Phdr.mk.injEq, and_true]
  exact part 0 4 (by omega)

def Phdr.Fits (ph : Phdr) (size : Nat) : Prop := u64 (ph.offset + ph.filesz) ≤ size

instance (ph : Phdr) (size : Nat) : Decidable (ph.Fits size) := inferInstanceAs (Decidable (_ ≤ _))

def outcome (size : Nat) : List Phdr → List Phdr × Bool
  | [] => ([], true)
  | ph :: rest =>
    if ph.type ≠ ptLoad then outcome size rest
    else if ph.Fits size then (ph :: (outcome size rest).1, (outcome size rest).2)
    else ([], false)

section File
variable (mem : Mem) (data : Nat)

def tableOf : Nat := u64 (data + (ehdrAt mem data).phoff)

def phnumOf : Nat := (ehdrAt mem data).phnum

def phdrOf (index : Nat) : Phdr := phdrAt mem (phdrAddress (tableOf mem data) index)

def phdrsOf : List Phdr := (List.range (phnumOf mem data)).map (phdrOf mem data)

def Metadata (place : Nat) : Prop :=
  Touches data sizeofEhdr place ∨
    ∃ index < phnumOf mem data, Touches (phdrAddress (tableOf mem data) index) sizeofPhdr place

/-- No segment that is placed lands on a header. -/
def SparesHeaders (size : Nat) : Prop :=
  ∀ ph ∈ (outcome size (phdrsOf mem data)).1, ∀ place, ph.Covers place → ¬Metadata mem data place

def SameHeaders (now : Mem) : Prop := ∀ place, Metadata mem data place → now place = mem place

end File

variable {mem now : Mem} {data size : Nat}

theorem phnumOf_lt : phnumOf mem data < 65536 :=
  Nat.lt_of_lt_of_eq (Mem.le_lt (fun place => mem (u64 place)) (data + 56) 2) (by decide)

section
variable (same : SameHeaders mem data now)
include same

theorem SameHeaders.ehdr : ehdrAt now data = ehdrAt mem data :=
  ehdrAt_congr fun place touched => same place (.inl touched)

theorem SameHeaders.phnum : (ehdrAt now data).phnum = phnumOf mem data :=
  congrArg Ehdr.phnum same.ehdr

theorem SameHeaders.phdr {index : Nat} (listed : index < phnumOf mem data) :
    phdrAt now (phdrAddress (tableOf mem data) index) = phdrOf mem data index :=
  phdrAt_congr fun place touched => same place (.inr ⟨index, listed, touched⟩)

theorem SameHeaders.placed (spares : ∀ place, ph.Covers place → ¬Metadata mem data place) :
    SameHeaders mem data (placed data now ph) :=
  fun place header => (placed_other data now fun covered => spares place covered header).trans (same place header)

theorem SameHeaders.zeroed (spares : ∀ place, ph.Covers place → ¬Metadata mem data place) :
    SameHeaders mem data (memsetL 0 ph.memsz ph.vaddr now) :=
  fun place header => (memsetL_other _ _ fun touched => spares place (touched.mono (by omega)) header).trans
    (same place header)

end

def bounds : List Phdr → Nat → Nat → Nat × Nat
  | [], minV, maxV => (minV, maxV)
  | ph :: rest, minV, maxV =>
    if ph.type ≠ ptLoad then bounds rest minV maxV
    else bounds rest (min ph.vaddr minV) (max (u64 (ph.vaddr + ph.memsz)) maxV)

theorem scan_run (table : Nat) (indices : List Nat) (minV maxV : Nat) (machine : Machine) :
    scan table indices minV maxV machine =
      (bounds (indices.map fun index => phdrAt machine.mem (phdrAddress table index)) minV maxV,
        { machine with
          reads := (indices.map fun index => ⟨phdrAddress table index, sizeofPhdr⟩).reverse ++ machine.reads }) := by
  induction indices generalizing minV maxV machine with
  | nil => rfl
  | cons index rest ih =>
    have step : scan table (index :: rest) minV maxV machine =
        (if (phdrAt machine.mem (phdrAddress table index)).type ≠ ptLoad then scan table rest minV maxV
          else scan table rest (min (phdrAt machine.mem (phdrAddress table index)).vaddr minV)
            (max (u64 ((phdrAt machine.mem (phdrAddress table index)).vaddr +
              (phdrAt machine.mem (phdrAddress table index)).memsz)) maxV))
        { machine with reads := ⟨phdrAddress table index, sizeofPhdr⟩ :: machine.reads } := rfl
    rw [step]
    split
    next other =>
      rw [ih]
      simp only [map_cons, bounds, if_pos other, reverse_cons, append_assoc, singleton_append]
    next load =>
      rw [ih]
      simp only [map_cons, bounds, if_neg load, reverse_cons, append_assoc, singleton_append]

/-- The test for "no PT_LOAD": a segment at the last address does not count. -/
theorem bounds_none {maxV top : Nat} {minV : Nat} (below : minV ≤ top) (small : ∀ ph ∈ phdrs, ph.vaddr ≤ top) :
    (bounds phdrs minV maxV).1 = top ↔ minV = top ∧ ∀ ph ∈ phdrs, ph.type = ptLoad → ph.vaddr = top := by
  induction phdrs generalizing minV maxV with
  | nil => simp [bounds]
  | cons ph rest ih =>
    have here := small ph mem_cons_self
    have others := fun other (member : other ∈ rest) => small other (mem_cons_of_mem _ member)
    rw [bounds]
    split
    next other =>
      rw [ih below others, forall_mem_cons]
      exact ⟨fun ⟨least, all⟩ => ⟨least, fun load => absurd load other, all⟩, fun ⟨least, _, all⟩ => ⟨least, all⟩⟩
    next load =>
      rw [ih (by omega) others, forall_mem_cons]
      have load : ph.type = ptLoad := by simpa using load
      exact ⟨fun ⟨least, all⟩ => ⟨by omega, fun _ => by omega, all⟩, fun ⟨least, first, all⟩ =>
        ⟨by have := first load; omega, all⟩⟩

def HasSegment (mem : Mem) (data : Nat) : Prop :=
  ∃ ph ∈ phdrsOf mem data, ph.type = ptLoad ∧ ph.vaddr ≠ 2 ^ 64 - 1

theorem phdrsOf_vaddr (listed : ph ∈ phdrsOf mem data) : ph.vaddr ≤ 2 ^ 64 - 1 := by
  obtain ⟨index, -, rfl⟩ := List.mem_map.mp listed
  have small := Mem.le_lt (fun place => mem (u64 place)) (phdrAddress (tableOf mem data) index + 16) 8
  exact Nat.le_pred_of_lt small

theorem bounds_hasSegment :
    (bounds (phdrsOf mem data) (2 ^ 64 - 1) 0).1 ≠ 2 ^ 64 - 1 ↔ HasSegment mem data := by
  rw [ne_eq, bounds_none (Nat.le_refl _) fun ph listed => phdrsOf_vaddr listed, HasSegment]
  push Not
  exact ⟨fun found => found rfl, fun found _ => found⟩

theorem mem_outcome :
    ph ∈ (outcome size phdrs).1 ↔ ∃ before after, phdrs = before ++ ph :: after ∧ ph.type = ptLoad ∧ ph.Fits size ∧
      ∀ earlier ∈ before, earlier.type = ptLoad → earlier.Fits size := by
  induction phdrs with
  | nil => simp [outcome]
  | cons first rest ih =>
    rw [outcome]
    constructor
    · intro member
      split at member
      next other =>
        obtain ⟨before, after, rfl, load, fits, all⟩ := ih.mp member
        refine ⟨first :: before, after, rfl, load, fits, forall_mem_cons.mpr ⟨fun is => absurd is other, all⟩⟩
      next load =>
        split at member
        next fits =>
          rcases mem_cons.mp member with rfl | later
          · exact ⟨[], rest, rfl, by simpa using load, fits, by simp⟩
          · obtain ⟨before, after, rfl, loads, held, all⟩ := ih.mp later
            exact ⟨first :: before, after, rfl, loads, held, forall_mem_cons.mpr ⟨fun _ => fits, all⟩⟩
        next => simp at member
    · rintro ⟨before, after, split, load, fits, all⟩
      cases before with
      | nil =>
        obtain ⟨rfl, rfl⟩ := List.cons.inj split
        rw [if_neg (by simpa using load), if_pos fits]
        exact mem_cons_self
      | cons head before =>
        obtain ⟨rfl, rfl⟩ := List.cons.inj split
        obtain ⟨here, all⟩ := forall_mem_cons.mp all
        have later := ih.mpr ⟨before, after, rfl, load, fits, all⟩
        by_cases other : first.type ≠ ptLoad
        · rw [if_pos other]
          exact later
        · rw [if_neg other, if_pos (here (by simpa using other))]
          exact mem_cons_of_mem _ later

theorem outcome_fails {before after : List Phdr} {ph : Phdr} (load : ph.type = ptLoad) (large : ¬ph.Fits size)
    (all : ∀ earlier ∈ before, earlier.type = ptLoad → earlier.Fits size) :
    outcome size (before ++ ph :: after) = (before.filter fun earlier => earlier.type = ptLoad, false) := by
  induction before with
  | nil => simp only [nil_append, outcome, load, ne_eq, not_true_eq_false, if_false, large, filter_nil]
  | cons first before ih =>
    obtain ⟨here, all⟩ := forall_mem_cons.mp all
    rw [cons_append, outcome, ih all]
    by_cases loads : first.type = ptLoad
    · simp only [loads, ne_eq, not_true_eq_false, if_false, here loads, if_true, decide_true, filter_cons_of_pos]
    · simp only [loads, ne_eq, not_false_eq_true, if_true, decide_false, Bool.false_eq_true, filter_cons_of_neg]

theorem outcome_false (fails : (outcome size phdrs).2 = false) :
    ∃ before ph after, phdrs = before ++ ph :: after ∧ ph.type = ptLoad ∧ ¬ph.Fits size ∧
      ∀ earlier ∈ before, earlier.type = ptLoad → earlier.Fits size := by
  induction phdrs with
  | nil => simp [outcome] at fails
  | cons first rest ih =>
    rw [outcome] at fails
    split at fails
    next other =>
      obtain ⟨before, ph, after, rfl, load, large, all⟩ := ih fails
      exact ⟨first :: before, ph, after, rfl, load, large, forall_mem_cons.mpr ⟨fun is => absurd is other, all⟩⟩
    next load =>
      split at fails
      next fits =>
        obtain ⟨before, ph, after, rfl, loads, large, all⟩ := ih fails
        exact ⟨first :: before, ph, after, rfl, loads, large, forall_mem_cons.mpr ⟨fun _ => fits, all⟩⟩
      next large => exact ⟨[], first, rest, rfl, by simpa using load, large, by simp⟩

def HeaderRead (mem : Mem) (data : Nat) (span : Span) : Prop :=
  span = ⟨data, sizeofEhdr⟩ ∨ ∃ index < phnumOf mem data, span = ⟨phdrAddress (tableOf mem data) index, sizeofPhdr⟩

/-- The bytes of the file that belong to a segment. -/
def Phdr.source (ph : Phdr) (data : Nat) : Span := ⟨u64 (data + ph.offset), ph.filesz⟩

/-- The effect of placing `segments`, with nothing read but headers and the segments' bytes. -/
structure Placed (mem : Mem) (data : Nat) (segments : List Phdr) (before after : Machine) : Prop where
  image : after.mem = segments.foldl (placed data) before.mem
  same : SameHeaders mem data after.mem
  writes : ∀ span, span ∈ after.writes ↔ span ∈ before.writes ∨
    ∃ ph ∈ segments, span = ⟨ph.vaddr, ph.memsz⟩ ∨ span = ⟨ph.vaddr, ph.filesz⟩
  reads : ∀ span ∈ after.reads, span ∈ before.reads ∨ HeaderRead mem data span ∨ ∃ ph ∈ segments, span = ph.source data
  kept : ∀ span ∈ before.reads, span ∈ after.reads
  sources : ∀ ph ∈ segments, ph.source data ∈ after.reads

theorem Placed.refl {machine : Machine} (same : SameHeaders mem data machine.mem) :
    Placed mem data [] machine machine :=
  ⟨rfl, same, by simp, fun _ member => .inl member, fun _ member => member, by simp⟩

theorem Placed.read {segments : List Phdr} {before after : Machine} {span : Span} (header : HeaderRead mem data span)
    (effect : Placed mem data segments { before with reads := span :: before.reads } after) :
    Placed mem data segments before after where
  image := effect.image
  same := effect.same
  writes := effect.writes
  reads := by
    intro other member
    rcases effect.reads other member with earlier | rest
    · rcases mem_cons.mp earlier with rfl | earlier
      · exact .inr (.inl header)
      · exact .inl earlier
    · exact .inr rest
  kept := fun other member => effect.kept other (mem_cons_of_mem _ member)
  sources := effect.sources

theorem Placed.then_read {segments : List Phdr} {before after : Machine} {span : Span}
    (effect : Placed mem data segments before after) (header : HeaderRead mem data span) :
    Placed mem data segments before { after with reads := span :: after.reads } where
  image := effect.image
  same := effect.same
  writes := effect.writes
  reads := by
    intro other member
    rcases mem_cons.mp member with rfl | earlier
    · exact .inr (.inl header)
    · exact effect.reads other earlier
  kept := fun other member => mem_cons_of_mem _ (effect.kept other member)
  sources := fun ph listed => mem_cons_of_mem _ (effect.sources ph listed)

theorem Placed.segment {segments : List Phdr} {before after : Machine}
    (effect : Placed mem data segments
      ⟨placed data before.mem ph, ph.source data :: before.reads, ⟨ph.vaddr, ph.filesz⟩ :: ⟨ph.vaddr, ph.memsz⟩ ::
        before.writes⟩ after) : Placed mem data (ph :: segments) before after where
  image := effect.image
  same := effect.same
  writes := by
    intro span
    rw [effect.writes, mem_cons, mem_cons, exists_mem_cons_iff]
    grind
  reads := by
    intro span member
    rcases effect.reads span member with earlier | header | ⟨later, listed, is⟩
    · rcases mem_cons.mp earlier with rfl | earlier
      · exact .inr (.inr ⟨ph, mem_cons_self, rfl⟩)
      · exact .inl earlier
    · exact .inr (.inl header)
    · exact .inr (.inr ⟨later, mem_cons_of_mem _ listed, is⟩)
  kept := fun span member => effect.kept span (mem_cons_of_mem _ member)
  sources := by
    intro later listed
    rcases mem_cons.mp listed with rfl | listed
    · exact effect.kept _ mem_cons_self
    · exact effect.sources later listed

theorem bind_run {α β : Type} (first : Code α) (next : α → Code β) (machine : Machine) :
    (first >>= next) machine = next (first machine).1 (first machine).2 := rfl

theorem modify_run (change : Machine → Machine) (machine : Machine) :
    (modify change : Code Unit) machine = ((), change machine) := rfl

/-- A round that places a segment, with the header `again` that it finds after the zeros. -/
theorem placeSegment_run {address : Nat} {machine : Machine} {again : Phdr} {zeroed : Mem}
    (zeros : memsetL 0 ph.memsz ph.vaddr machine.mem = zeroed) (same : phdrAt zeroed address = again) :
    (placeSegment data address ph machine).2 = ⟨memcpyL again.filesz ph.vaddr (u64 (data + again.offset)) zeroed,
      again.source data :: ⟨address, sizeofPhdr⟩ :: machine.reads,
      ⟨ph.vaddr, again.filesz⟩ :: ⟨ph.vaddr, ph.memsz⟩ :: machine.writes⟩ := by
  rw [placeSegment, bind_run, bind_run]
  simp only [modify_run, readPhdr, zeros, same]
  rfl

theorem placeSegment_same {address : Nat} {machine : Machine}
    (same : phdrAt (memsetL 0 ph.memsz ph.vaddr machine.mem) address = ph) :
    (placeSegment data address ph machine).2 = ⟨placed data machine.mem ph,
      ph.source data :: ⟨address, sizeofPhdr⟩ :: machine.reads,
      ⟨ph.vaddr, ph.filesz⟩ :: ⟨ph.vaddr, ph.memsz⟩ :: machine.writes⟩ :=
  placeSegment_run rfl same

theorem loadSegments_succ (table rounds index : Nat) (machine : Machine) :
    loadSegments data size table (rounds + 1) index machine =
      if (ehdrAt machine.mem data).phnum ≤ index then
        (true, { machine with reads := ⟨data, sizeofEhdr⟩ :: machine.reads })
      else
        let ph := phdrAt machine.mem (phdrAddress table index)
        let machine := { machine with
          reads := ⟨phdrAddress table index, sizeofPhdr⟩ :: ⟨data, sizeofEhdr⟩ :: machine.reads }
        if ph.type ≠ ptLoad then loadSegments data size table rounds (index + 1) machine
        else if ph.Fits size then
          loadSegments data size table rounds (index + 1) (placeSegment data (phdrAddress table index) ph machine).2
        else (false, machine) := by
  change (if (ehdrAt machine.mem data).phnum ≤ index then pure true else _ : Code Bool) _ = _
  split
  · rfl
  · change (if (phdrAt machine.mem (phdrAddress table index)).type ≠ ptLoad then _ else _ : Code Bool) _ = _
    dsimp only
    split
    · rfl
    · split
      next large =>
        rw [if_neg (show ¬Phdr.Fits _ size from Nat.not_le.mpr large)]
        rfl
      next fits =>
        rw [if_pos (show Phdr.Fits _ size from Nat.not_lt.mp fits)]
        rfl

theorem loadSegments_run {rounds index count : Nat} {machine : Machine}
    (spares : ∀ ph ∈ (outcome size ((List.range' index count).map (phdrOf mem data))).1, ∀ place, ph.Covers place →
      ¬Metadata mem data place)
    (total : index + count = phnumOf mem data) (enough : count ≤ rounds) (same : SameHeaders mem data machine.mem) :
    let result := loadSegments data size (tableOf mem data) rounds index machine
    let expected := outcome size ((List.range' index count).map (phdrOf mem data))
    result.1 = expected.2 ∧ Placed mem data expected.1 machine result.2 := by
  induction rounds generalizing index count machine with
  | zero =>
    obtain rfl : count = 0 := by omega
    exact ⟨rfl, Placed.refl same⟩
  | succ rounds ih =>
    rw [loadSegments_succ, same.phnum]
    cases count with
    | zero =>
      rw [if_pos (show phnumOf mem data ≤ index by omega)]
      exact ⟨rfl, Placed.read (.inl rfl) (Placed.refl same)⟩
    | succ count =>
      have listed : index < phnumOf mem data := by omega
      rw [List.range'_succ, map_cons, outcome] at spares
      rw [if_neg (show ¬phnumOf mem data ≤ index by omega), same.phdr listed, List.range'_succ, map_cons, outcome]
      dsimp only
      generalize seen : Machine.mk machine.mem (⟨phdrAddress (tableOf mem data) index, sizeofPhdr⟩ ::
        ⟨data, sizeofEhdr⟩ :: machine.reads) machine.writes = next
      have unchanged : next.mem = machine.mem := by rw [← seen]
      have headers : ∀ {segments : List Phdr} {after : Machine}, Placed mem data segments next after →
          Placed mem data segments machine after :=
        fun effect => Placed.read (.inl rfl) (Placed.read (.inr ⟨index, listed, rfl⟩) (seen ▸ effect))
      rw [← unchanged] at same
      split
      next other =>
        rw [if_pos other] at spares
        obtain ⟨result, effect⟩ := ih spares (show index + 1 + count = _ by omega) (by omega) same
        exact ⟨result, headers effect⟩
      next load =>
        rw [if_neg load] at spares
        split
        next fits =>
          rw [if_pos fits] at spares
          obtain ⟨here, later⟩ := forall_mem_cons.mp spares
          have again := (same.zeroed here).phdr listed
          rw [placeSegment_same again]
          generalize is : Machine.mk (placed data next.mem (phdrOf mem data index)) _ _ = after
          have kept : SameHeaders mem data after.mem := is ▸ same.placed here
          obtain ⟨result, effect⟩ := ih later (show index + 1 + count = _ by omega) (by omega) kept
          subst is
          exact ⟨result, headers (Placed.read (.inr ⟨index, listed, rfl⟩) effect.segment)⟩
        next large => exact ⟨rfl, headers (Placed.refl same)⟩

/-- The arguments and the ELF header pass the tests before the first loop. -/
def Accepts (mem : Mem) (data size : Nat) : Prop :=
  data ≠ 0 ∧ sizeofEhdr ≤ size ∧ (ehdrAt mem data).accepted size = true

def scanned (mem : Mem) (data : Nat) : Machine where
  mem := mem
  reads := ((List.range (phnumOf mem data)).map fun index =>
    ⟨phdrAddress (tableOf mem data) index, sizeofPhdr⟩).reverse ++ [⟨data, sizeofEhdr⟩]
  writes := []

theorem mem_scanned {span : Span} : span ∈ (scanned mem data).reads ↔ HeaderRead mem data span := by
  simp only [scanned, HeaderRead, mem_append, mem_reverse, List.mem_map, mem_range,
    mem_singleton, eq_comm (a := span), or_comm]

def called (mem : Mem) (data size : Nat) : Option Info × Machine := elfLoad data size ⟨mem, [], []⟩

theorem called_rejects (rejected : ¬Accepts mem data size) :
    ∃ reads, called mem data size = (none, ⟨mem, reads, []⟩) ∧
      ∀ span ∈ reads, span = ⟨data, sizeofEhdr⟩ ∧ sizeofEhdr ≤ size := by
  rw [called, elfLoad]
  split
  · exact ⟨[], rfl, fun span member => absurd member not_mem_nil⟩
  next proper =>
    have refused : (ehdrAt mem data).accepted size = false := by
      rw [← Bool.not_eq_true]
      exact fun accepted => rejected ⟨by tauto, by omega, accepted⟩
    refine ⟨[⟨data, sizeofEhdr⟩], ?_, fun span member => ⟨mem_singleton.mp member, by omega⟩⟩
    change (if (!(ehdrAt mem data).accepted size) = true then pure none else _ : Code (Option Info)) _ = _
    rw [refused]
    rfl

theorem called_accepts (accepts : Accepts mem data size) :
    called mem data size =
      let extent := bounds (phdrsOf mem data) (2 ^ 64 - 1) 0
      if extent.1 = 2 ^ 64 - 1 then (none, scanned mem data)
      else
        let loaded := loadSegments data size (tableOf mem data) 65535 0 (scanned mem data)
        if loaded.1 then
          (some ⟨(ehdrAt loaded.2.mem data).entry, extent.1, u64 (extent.2 + 2 ^ 64 - extent.1)⟩,
            { loaded.2 with reads := ⟨data, sizeofEhdr⟩ :: loaded.2.reads })
        else (none, loaded.2) := by
  obtain ⟨proper, long, accepted⟩ := accepts
  have first : scan (tableOf mem data) (List.range (phnumOf mem data)) (2 ^ 64 - 1) 0
      ⟨mem, [⟨data, sizeofEhdr⟩], []⟩ = (bounds (phdrsOf mem data) (2 ^ 64 - 1) 0, scanned mem data) :=
    scan_run _ _ _ _ _
  rw [called, elfLoad, if_neg (by omega)]
  change (if (!(ehdrAt mem data).accepted size) = true then pure none else _ : Code (Option Info)) _ = _
  rw [accepted, if_neg (by decide), bind_run]
  erw [first]
  generalize bounds (phdrsOf mem data) (2 ^ 64 - 1) 0 = extent
  by_cases absent : extent.1 = 2 ^ 64 - 1
  · dsimp only
    rw [if_pos absent, if_pos absent]
    rfl
  · dsimp only
    rw [if_neg absent, if_neg absent, bind_run]
    change (if (!(loadSegments data size (tableOf mem data) 65535 0 (scanned mem data)).1) = true then pure none
      else _ : Code (Option Info)) _ = _
    cases (loadSegments data size (tableOf mem data) 65535 0 (scanned mem data)).1 <;> rfl

theorem called_empty (accepts : Accepts mem data size) (absent : ¬HasSegment mem data) :
    called mem data size = (none, scanned mem data) := by
  rw [called_accepts accepts]
  exact if_pos (Classical.not_not.mp fun present => absent (bounds_hasSegment.mp present))

theorem called_loads (spares : SparesHeaders mem data size) (accepts : Accepts mem data size)
    (segment : HasSegment mem data) :
    Placed mem data (outcome size (phdrsOf mem data)).1 (scanned mem data) (called mem data size).2 ∧
      (called mem data size).1.map Info.entry =
        if (outcome size (phdrsOf mem data)).2 then some (ehdrAt mem data).entry else none := by
  have start : SameHeaders mem data (scanned mem data).mem := fun _ _ => rfl
  have count : 0 + phnumOf mem data = phnumOf mem data := Nat.zero_add _
  have few := @phnumOf_lt mem data
  obtain ⟨result, effect⟩ := @loadSegments_run mem data size _ 0 _ _ (by rw [← range_eq_range']; exact spares) count (show _ ≤ 65535 by omega) start
  rw [← range_eq_range'] at result effect
  change _ = (outcome size (phdrsOf mem data)).2 at result
  rw [called_accepts accepts]
  dsimp only
  rw [if_neg (bounds_hasSegment.mpr segment), result]
  cases (outcome size (phdrsOf mem data)).2 with
  | false => exact ⟨effect, rfl⟩
  | true => exact ⟨effect.then_read (.inl rfl), congrArg (fun eh : Ehdr => some eh.entry) effect.same.ehdr⟩

theorem touches_iff {size : Nat} (fits : start + size ≤ 2 ^ 64) :
    Touches start size place ↔ (Span.mk start size).Holds place := by
  have whole : ∀ offset < size, u64 (start + offset) = start + offset :=
    fun offset inside => Nat.mod_eq_of_lt (by omega)
  constructor
  · rintro ⟨offset, inside, rfl⟩
    rw [whole offset inside]
    exact ⟨by dsimp only; omega, by dsimp only; omega⟩
  · rintro ⟨low, high⟩
    dsimp only at low high
    exact ⟨place - start, by omega, by rw [whole _ (by omega)]; omega⟩

def fileAt (data table : Nat) (eh : Ehdr) (phdrs : List Phdr) : Mem :=
  let mem : Mem := fun _ => 0
  let mem := ((mem.put data 4 eh.magic).put (data + 4) 1 eh.fileClass).put (data + 16) 2 eh.type
  let mem := ((mem.put (data + 18) 2 eh.machine).put (data + 24) 8 eh.entry).put (data + 32) 8 eh.phoff
  let mem := (mem.put (data + 54) 2 eh.phentsize).put (data + 56) 2 eh.phnum
  phdrs.zipIdx.foldl (fun mem ph =>
    let address := table + sizeofPhdr * ph.2
    let mem := (mem.put address 4 ph.1.type).put (address + 8) 8 ph.1.offset
    ((mem.put (address + 16) 8 ph.1.vaddr).put (address + 32) 8 ph.1.filesz).put (address + 40) 8 ph.1.memsz) mem

def executable (phdrs : List Phdr) : Mem :=
  fileAt 0x100000 (0x100000 + sizeofEhdr)
    ⟨elfMagic, 2, etExec, emX8664, 0x400000, sizeofEhdr, sizeofPhdr, phdrs.length⟩ phdrs

/-- The range, unless it is empty, lies in the `size` bytes at `data`. -/
def Inside (data size : Nat) (span : Span) : Prop :=
  span.size = 0 ∨ data ≤ span.start ∧ span.start + span.size ≤ data + size

instance (data size : Nat) (span : Span) : Decidable (Inside data size span) := inferInstanceAs (Decidable (_ ∨ _))

section Rounds

variable (data size table : Nat)

/-- The header `index` after the zeros of its segment have been written. -/
def reread (index : Nat) (now : Mem) : Phdr :=
  let ph := phdrAt now (phdrAddress table index)
  phdrAt (memsetL 0 ph.memsz ph.vaddr now) (phdrAddress table index)

def segmentPlaced (index : Nat) (now : Mem) : Mem :=
  let ph := phdrAt now (phdrAddress table index)
  let again := reread table index now
  memcpyL again.filesz ph.vaddr (u64 (data + again.offset)) (memsetL 0 ph.memsz ph.vaddr now)

/-- A round of the second loop that does not end it, with the memory as it stands then. -/
inductive Next : Nat × Mem → Nat × Mem → Prop where
  | skip {index : Nat} {now : Mem} (more : index < (ehdrAt now data).phnum)
      (other : (phdrAt now (phdrAddress table index)).type ≠ ptLoad) : Next (index, now) (index + 1, now)
  | place {index : Nat} {now : Mem} (more : index < (ehdrAt now data).phnum)
      (load : (phdrAt now (phdrAddress table index)).type = ptLoad)
      (fits : (phdrAt now (phdrAddress table index)).Fits size) :
      Next (index, now) (index + 1, segmentPlaced data table index now)

/-- The second loop comes to a header of the given index and finds the memory `now`. -/
def Comes (start : Nat × Mem) (index : Nat) (now : Mem) : Prop :=
  Relation.ReflTransGen (Next data size table) start (index, now) ∧ index < (ehdrAt now data).phnum

def Always (holds : Nat → Mem → Prop) (start : Nat × Mem) : Prop :=
  ∀ index now, Comes data size table start index now → holds index now

/-- The header and, if its segment is placed, the bytes of the segment lie in the buffer. -/
def RoundInside (index : Nat) (now : Mem) : Prop :=
  Inside data size ⟨phdrAddress table index, sizeofPhdr⟩ ∧
    ((phdrAt now (phdrAddress table index)).type = ptLoad → (phdrAt now (phdrAddress table index)).Fits size →
      Inside data size ((reread table index now).source data))

def RoundFits (index : Nat) (now : Mem) : Prop :=
  (phdrAt now (phdrAddress table index)).type = ptLoad → (phdrAt now (phdrAddress table index)).Fits size

/-- The segment, if it is placed, is empty. -/
def RoundIdle (index : Nat) (now : Mem) : Prop :=
  (phdrAt now (phdrAddress table index)).type = ptLoad → (phdrAt now (phdrAddress table index)).Fits size →
    (phdrAt now (phdrAddress table index)).memsz = 0 ∧ (reread table index now).filesz = 0

variable {data size table} {holds : Nat → Mem → Prop} {index : Nat}

theorem always_iff : Always data size table holds (index, now) ↔
    (index < (ehdrAt now data).phnum → holds index now) ∧
      ∀ next, Next data size table (index, now) next → Always data size table holds next := by
  constructor
  · exact fun all => ⟨fun more => all index now ⟨.refl, more⟩,
      fun next step other later comes => all other later ⟨.head step comes.1, comes.2⟩⟩
  · rintro ⟨here, later⟩ other final ⟨reaches, more⟩
    rcases reaches.cases_head with same | ⟨next, step, rest⟩
    · cases same
      exact here more
    · exact later next step other final ⟨rest, more⟩

theorem always_done (done : (ehdrAt now data).phnum ≤ index) : Always data size table holds (index, now) := by
  refine always_iff.mpr ⟨fun more => absurd more (by omega), fun next step => ?_⟩
  cases step with
  | skip more | place more => omega

section
variable (more : index < (ehdrAt now data).phnum)
include more

theorem always_skip (other : (phdrAt now (phdrAddress table index)).type ≠ ptLoad) :
    Always data size table holds (index, now) ↔ holds index now ∧ Always data size table holds (index + 1, now) := by
  refine always_iff.trans ⟨fun ⟨here, later⟩ => ⟨here more, later _ (.skip more other)⟩,
    fun ⟨here, later⟩ => ⟨fun _ => here, fun next step => ?_⟩⟩
  cases step with
  | skip => exact later
  | place _ load => exact absurd load other

variable (load : (phdrAt now (phdrAddress table index)).type = ptLoad)
include load

theorem always_place (fits : (phdrAt now (phdrAddress table index)).Fits size) :
    Always data size table holds (index, now) ↔
      holds index now ∧ Always data size table holds (index + 1, segmentPlaced data table index now) := by
  refine always_iff.trans ⟨fun ⟨here, later⟩ => ⟨here more, later _ (.place more load fits)⟩,
    fun ⟨here, later⟩ => ⟨fun _ => here, fun next step => ?_⟩⟩
  cases step with
  | skip _ other => exact absurd load other
  | place => exact later

theorem always_stuck (large : ¬(phdrAt now (phdrAddress table index)).Fits size) :
    Always data size table holds (index, now) ↔ holds index now := by
  refine always_iff.trans ⟨fun ⟨here, _⟩ => here more, fun here => ⟨fun _ => here, fun next step => ?_⟩⟩
  cases step with
  | skip _ other => exact absurd load other
  | place _ _ fits => exact absurd fits large

end

theorem and_rearranged {first second third fourth : Prop} :
    (first ∧ second ∧ third) ∧ fourth ↔ third ∧ (second ∧ first) ∧ fourth := by tauto

/-- What the second loop returns, reads and writes, told from the rounds that it comes to. -/
theorem loadSegments_rounds (header : Inside data size ⟨data, sizeofEhdr⟩) {rounds : Nat} {machine : Machine}
    (enough : 65535 ≤ rounds + index) :
    let result := loadSegments data size table rounds index machine
    (result.1 = true ↔ Always data size table (RoundFits size table) (index, machine.mem)) ∧
    ((∀ span ∈ result.2.reads, Inside data size span) ↔ (∀ span ∈ machine.reads, Inside data size span) ∧
      Always data size table (RoundInside data size table) (index, machine.mem)) ∧
    ((∀ span ∈ result.2.writes, span.size = 0) ↔ (∀ span ∈ machine.writes, span.size = 0) ∧
      Always data size table (RoundIdle size table) (index, machine.mem)) := by
  induction rounds generalizing index machine with
  | zero =>
    have few := @phnumOf_lt machine.mem data
    have done : (ehdrAt machine.mem data).phnum ≤ index := by
      unfold phnumOf at few
      omega
    exact ⟨iff_of_true rfl (always_done done), (and_iff_left (always_done done)).symm,
      (and_iff_left (always_done done)).symm⟩
  | succ rounds ih =>
    rw [loadSegments_succ]
    by_cases done : (ehdrAt machine.mem data).phnum ≤ index
    · rw [if_pos done]
      refine ⟨iff_of_true rfl (always_done done), ?_, (and_iff_left (always_done done)).symm⟩
      rw [and_iff_left (always_done done), forall_mem_cons, and_iff_right header]
    have more : index < (ehdrAt machine.mem data).phnum := Nat.not_le.mp done
    rw [if_neg done]
    dsimp only
    have seen {span : Span} : (∀ other ∈ span :: ⟨data, sizeofEhdr⟩ :: machine.reads, Inside data size other) ↔
        Inside data size span ∧ ∀ other ∈ machine.reads, Inside data size other := by
      rw [forall_mem_cons, forall_mem_cons, and_iff_right header]
    by_cases load : (phdrAt machine.mem (phdrAddress table index)).type = ptLoad
    swap
    · rw [if_pos load]
      obtain ⟨returns, reads, writes⟩ := @ih (index + 1) ⟨machine.mem,
        ⟨phdrAddress table index, sizeofPhdr⟩ :: ⟨data, sizeofEhdr⟩ :: machine.reads, machine.writes⟩ (by omega)
      rw [returns, reads, writes, seen, always_skip more load, always_skip more load, always_skip more load]
      simp only [RoundFits, RoundInside, RoundIdle, load, false_implies, true_and, and_true]
      exact and_assoc.trans and_left_comm
    rw [if_neg (not_not.mpr load)]
    by_cases fits : (phdrAt machine.mem (phdrAddress table index)).Fits size
    · rw [if_pos fits]
      have step (reads : List Span) : (placeSegment data (phdrAddress table index)
          (phdrAt machine.mem (phdrAddress table index)) ⟨machine.mem, reads, machine.writes⟩).2 =
          ⟨segmentPlaced data table index machine.mem,
            (reread table index machine.mem).source data :: ⟨phdrAddress table index, sizeofPhdr⟩ :: reads,
            ⟨(phdrAt machine.mem (phdrAddress table index)).vaddr, (reread table index machine.mem).filesz⟩ ::
              ⟨(phdrAt machine.mem (phdrAddress table index)).vaddr,
                (phdrAt machine.mem (phdrAddress table index)).memsz⟩ :: machine.writes⟩ := placeSegment_run rfl rfl
      rw [step]
      obtain ⟨returns, reads, writes⟩ := @ih (index + 1) ⟨segmentPlaced data table index machine.mem, _, _⟩ (by omega)
      rw [returns, reads, writes, always_place more load fits, always_place more load fits,
        always_place more load fits, forall_mem_cons, forall_mem_cons, seen, and_self_left, forall_mem_cons,
        forall_mem_cons]
      simp only [RoundFits, RoundInside, RoundIdle, load, fits, true_implies, true_and]
      exact ⟨and_rearranged, and_rearranged⟩
    · rw [if_neg fits]
      dsimp only
      rw [seen, always_stuck more load fits, always_stuck more load fits, always_stuck more load fits]
      simp only [RoundFits, RoundInside, RoundIdle, load, fits, true_implies, false_implies, and_true,
        Bool.false_eq_true, true_and]
      exact and_comm

end Rounds

theorem rejected_inside (rejected : ¬Accepts mem data size) :
    ∀ span ∈ (called mem data size).2.reads, Inside data size span := by
  obtain ⟨reads, is, header⟩ := called_rejects rejected
  rw [is]
  intro span member
  obtain ⟨rfl, long⟩ := header span member
  exact .inr ⟨Nat.le_refl _, Nat.add_le_add_left long _⟩

theorem scanned_inside (long : Inside data size ⟨data, sizeofEhdr⟩) :
    (∀ span ∈ (scanned mem data).reads, Inside data size span) ↔
      ∀ index < phnumOf mem data, Inside data size ⟨phdrAddress (tableOf mem data) index, sizeofPhdr⟩ := by
  constructor
  · exact fun inside index listed => inside _ (mem_scanned.mpr (.inr ⟨index, listed, rfl⟩))
  · intro inside span member
    rcases mem_scanned.mp member with rfl | ⟨index, listed, rfl⟩
    · exact long
    · exact inside index listed

theorem reads_inside_sparing (spares : SparesHeaders mem data size) :
    (∀ span ∈ (elfLoad data size ⟨mem, [], []⟩).2.reads, Inside data size span) ↔
      (Accepts mem data size →
        (∀ index < phnumOf mem data, Inside data size ⟨phdrAddress (tableOf mem data) index, sizeofPhdr⟩) ∧
        (HasSegment mem data → ∀ before ph after, phdrsOf mem data = before ++ ph :: after → ph.type = ptLoad →
          ph.Fits size → (∀ earlier ∈ before, earlier.type = ptLoad → earlier.Fits size) →
          Inside data size (ph.source data))) := by
  change (∀ span ∈ (called mem data size).2.reads, Inside data size span) ↔ _
  by_cases accepts : Accepts mem data size
  swap
  · exact iff_of_true (rejected_inside accepts) fun accepted => absurd accepted accepts
  have long : Inside data size ⟨data, sizeofEhdr⟩ := .inr ⟨Nat.le_refl _, Nat.add_le_add_left accepts.2.1 _⟩
  by_cases segment : HasSegment mem data
  · obtain ⟨effect, -⟩ := @called_loads mem data size spares accepts segment
    constructor
    · refine fun inside _ => ⟨fun index listed => inside _ (effect.kept _ (mem_scanned.mpr (.inr ⟨index, listed, rfl⟩))),
        fun _ before ph after split load fits all => inside _ (effect.sources ph ?_)⟩
      exact mem_outcome.mpr ⟨before, after, split, load, fits, all⟩
    · intro condition span member
      obtain ⟨headers, sources⟩ := condition accepts
      have header : HeaderRead mem data span → Inside data size span := by
        rintro (rfl | ⟨index, listed, rfl⟩)
        · exact long
        · exact headers index listed
      rcases effect.reads span member with earlier | read | ⟨ph, listed, rfl⟩
      · exact header (mem_scanned.mp earlier)
      · exact header read
      · obtain ⟨before, after, split, load, fits, all⟩ := mem_outcome.mp listed
        exact sources segment before ph after split load fits all
  · rw [called_empty accepts segment, scanned_inside long]
    exact ⟨fun inside _ => ⟨inside, fun present => absurd present segment⟩, fun condition => (condition accepts).1⟩

/-- `elf_load` stays in the buffer exactly when it rejects the ELF header, or every program header
of the file lies in the buffer and so does what every round of the second loop reads. When the
segments spare the headers, those are the bytes of the segments that pass their test. The sums of
the tests wrap, and the indexing ignores `e_phentsize`. -/
theorem elfLoad_reads_inside_iff (mem : Mem) (data size : Nat) :
    ((∀ span ∈ (elfLoad data size ⟨mem, [], []⟩).2.reads, Inside data size span) ↔
      (Accepts mem data size →
        (∀ index < phnumOf mem data, Inside data size ⟨phdrAddress (tableOf mem data) index, sizeofPhdr⟩) ∧
        (HasSegment mem data → ∀ index now, Comes data size (tableOf mem data) (0, mem) index now →
          RoundInside data size (tableOf mem data) index now))) ∧
    (SparesHeaders mem data size →
      ((∀ span ∈ (elfLoad data size ⟨mem, [], []⟩).2.reads, Inside data size span) ↔
        (Accepts mem data size →
          (∀ index < phnumOf mem data, Inside data size ⟨phdrAddress (tableOf mem data) index, sizeofPhdr⟩) ∧
          (HasSegment mem data → ∀ before ph after, phdrsOf mem data = before ++ ph :: after → ph.type = ptLoad →
            ph.Fits size → (∀ earlier ∈ before, earlier.type = ptLoad → earlier.Fits size) →
            Inside data size (ph.source data))))) := by
  refine ⟨?_, reads_inside_sparing⟩
  change (∀ span ∈ (called mem data size).2.reads, Inside data size span) ↔ _
  by_cases accepts : Accepts mem data size
  swap
  · exact iff_of_true (rejected_inside accepts) fun accepted => absurd accepted accepts
  have long : Inside data size ⟨data, sizeofEhdr⟩ := .inr ⟨Nat.le_refl _, Nat.add_le_add_left accepts.2.1 _⟩
  rw [forall_prop_of_true accepts]
  by_cases segment : HasSegment mem data
  · rw [forall_prop_of_true segment, ← scanned_inside long]
    obtain ⟨-, reads, -⟩ := @loadSegments_rounds data size (tableOf mem data) 0 long 65535 (scanned mem data) (by omega)
    rw [called_accepts accepts]
    dsimp only
    rw [if_neg (bounds_hasSegment.mpr segment)]
    split
    · rw [forall_mem_cons, and_iff_right long]
      exact reads
    · exact reads
  · rw [called_empty accepts segment, scanned_inside long]
    exact ⟨fun inside => ⟨inside, fun present => absurd present segment⟩, And.left⟩

/-- With `e_phentsize` zero the first program header is read behind the end of the file. -/
theorem elfLoad_reads_behind :
    let mem := fileAt 0x100000 0x100000 ⟨elfMagic, 2, etExec, emX8664, 0x400000, sizeofEhdr, 0, 1⟩ []
    ∃ span ∈ (elfLoad 0x100000 58 ⟨mem, [], []⟩).2.reads, ¬Inside 0x100000 58 span := by
  decide +kernel

/-- A call that does not get to the second loop writes nothing. -/
theorem writes_nothing_early (early : ¬(Accepts mem data size ∧ HasSegment mem data)) (span : Span) :
    span ∉ (called mem data size).2.writes := by
  by_cases accepts : Accepts mem data size
  · rw [called_empty accepts fun segment => early ⟨accepts, segment⟩]
    exact not_mem_nil
  · obtain ⟨reads, is, -⟩ := called_rejects accepts
    rw [is]
    exact not_mem_nil

theorem failure_writes_sparing (spares : SparesHeaders mem data size) :
    ((elfLoad data size ⟨mem, [], []⟩).1 = none →
        ∀ span ∈ (elfLoad data size ⟨mem, [], []⟩).2.writes, span.size = 0) ↔
      (Accepts mem data size → HasSegment mem data →
        ∀ before ph after, phdrsOf mem data = before ++ ph :: after → ph.type = ptLoad → ¬ph.Fits size →
          (∀ earlier ∈ before, earlier.type = ptLoad → earlier.Fits size) →
          ∀ earlier ∈ before, earlier.type = ptLoad → earlier.memsz = 0 ∧ earlier.filesz = 0) := by
  change ((called mem data size).1 = none → ∀ span ∈ (called mem data size).2.writes, span.size = 0) ↔ _
  by_cases loads : Accepts mem data size ∧ HasSegment mem data
  swap
  · exact iff_of_true (fun _ span member => absurd member (writes_nothing_early loads span))
      fun accepts segment => absurd ⟨accepts, segment⟩ loads
  obtain ⟨accepts, segment⟩ := loads
  obtain ⟨effect, entry⟩ := @called_loads mem data size spares accepts segment
  have failed : (called mem data size).1 = none ↔ (outcome size (phdrsOf mem data)).2 = false := by
    rw [← Option.map_eq_none_iff, entry]
    cases (outcome size (phdrsOf mem data)).2 <;> simp
  have written : ∀ span, span ∈ (called mem data size).2.writes ↔
      ∃ ph ∈ (outcome size (phdrsOf mem data)).1, span = ⟨ph.vaddr, ph.memsz⟩ ∨ span = ⟨ph.vaddr, ph.filesz⟩ := by
    intro span
    rw [effect.writes]
    exact or_iff_right not_mem_nil
  constructor
  · intro clean _ _ before ph after split load large all earlier member loads
    have fails := @outcome_fails size before after ph load large all
    rw [← split] at fails
    have placed : earlier ∈ (outcome size (phdrsOf mem data)).1 := by
      rw [fails]
      exact mem_filter.mpr ⟨member, decide_eq_true loads⟩
    have writes := clean (failed.mpr (congrArg Prod.snd fails))
    exact ⟨writes ⟨earlier.vaddr, earlier.memsz⟩ ((written _).mpr ⟨earlier, placed, .inl rfl⟩),
      writes ⟨earlier.vaddr, earlier.filesz⟩ ((written _).mpr ⟨earlier, placed, .inr rfl⟩)⟩
  · intro condition fails span member
    obtain ⟨before, ph, after, split, load, large, all⟩ := outcome_false (failed.mp fails)
    obtain ⟨earlier, listed, is⟩ := (written span).mp member
    rw [split, outcome_fails load large all] at listed
    obtain ⟨among, loads⟩ := mem_filter.mp listed
    obtain ⟨noMemory, noFile⟩ :=
      condition accepts segment before ph after split load large all earlier among (of_decide_eq_true loads)
    rcases is with rfl | rfl
    · exact noMemory
    · exact noFile

/-- A failed call has written nothing exactly when it fails before the second loop, or every
segment placed before the one that does not fit is empty. -/
theorem elfLoad_failure_writes_iff (mem : Mem) (data size : Nat) :
    (((elfLoad data size ⟨mem, [], []⟩).1 = none →
        ∀ span ∈ (elfLoad data size ⟨mem, [], []⟩).2.writes, span.size = 0) ↔
      (Accepts mem data size → HasSegment mem data →
        (∃ index now, Comes data size (tableOf mem data) (0, mem) index now ∧ ¬RoundFits size (tableOf mem data) index now) →
        ∀ index now, Comes data size (tableOf mem data) (0, mem) index now →
          RoundIdle size (tableOf mem data) index now)) ∧
    (SparesHeaders mem data size →
      (((elfLoad data size ⟨mem, [], []⟩).1 = none →
          ∀ span ∈ (elfLoad data size ⟨mem, [], []⟩).2.writes, span.size = 0) ↔
        (Accepts mem data size → HasSegment mem data →
          ∀ before ph after, phdrsOf mem data = before ++ ph :: after → ph.type = ptLoad → ¬ph.Fits size →
            (∀ earlier ∈ before, earlier.type = ptLoad → earlier.Fits size) →
            ∀ earlier ∈ before, earlier.type = ptLoad → earlier.memsz = 0 ∧ earlier.filesz = 0))) := by
  refine ⟨?_, failure_writes_sparing⟩
  change ((called mem data size).1 = none → ∀ span ∈ (called mem data size).2.writes, span.size = 0) ↔ _
  by_cases loads : Accepts mem data size ∧ HasSegment mem data
  swap
  · exact iff_of_true (fun _ span member => absurd member (writes_nothing_early loads span))
      fun accepts segment => absurd ⟨accepts, segment⟩ loads
  obtain ⟨accepts, segment⟩ := loads
  have long : Inside data size ⟨data, sizeofEhdr⟩ := .inr ⟨Nat.le_refl _, Nat.add_le_add_left accepts.2.1 _⟩
  obtain ⟨returns, -, writes⟩ := @loadSegments_rounds data size (tableOf mem data) 0 long 65535 (scanned mem data) (by omega)
  replace writes := writes.trans (and_iff_right fun span member => absurd member not_mem_nil)
  rw [forall_prop_of_true accepts, forall_prop_of_true segment, called_accepts accepts]
  dsimp only
  rw [if_neg (bounds_hasSegment.mpr segment)]
  split
  next loaded =>
    refine iff_of_true (fun failed => nomatch failed) ?_
    rintro ⟨index, now, comes, large⟩
    exact absurd (returns.mp loaded index now comes) large
  next failed =>
    rw [forall_prop_of_true rfl, writes]
    have stuck : ∃ index now, Comes data size (tableOf mem data) (0, mem) index now ∧
        ¬RoundFits size (tableOf mem data) index now := by
      by_contra fine
      push Not at fine
      exact failed (returns.mpr fine)
    exact ⟨fun idle _ => idle, fun condition => condition stuck⟩

/-- The second segment lies behind the end of the file, and the first is in memory when the
call fails. -/
theorem elfLoad_fails_after_writing :
    let mem := executable [⟨ptLoad, 170, 0x400000, 2, 16⟩, ⟨ptLoad, 200, 0x401000, 2, 16⟩]
    (elfLoad 0x100000 172 ⟨mem, [], []⟩).1 = none ∧
      ⟨0x400000, 16⟩ ∈ (elfLoad 0x100000 172 ⟨mem, [], []⟩).2.writes := by
  decide +kernel

end GWKernel.Elf
