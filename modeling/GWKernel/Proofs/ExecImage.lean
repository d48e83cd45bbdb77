import GWKernel.Exec
import GWKernel.Proofs.ElfLoad

/-! The memory a program finds: the image of the file, and then `enter_at` clears the page of the
user stack. -/

namespace GWKernel.Elf
open Lib List Option

variable {mem now : Mem} {data size : Nat}

variable {offset : Nat} {ph : Phdr} {place : Nat}

theorem not_touches_before {count dst : Nat} (whole : dst + (count + 1) ≤ 2 ^ 64) : ¬Touches (dst + 1) count (dst + 0) := by
  rw [touches_iff (by omega)]
  simp only [Span.Holds]
  omega

theorem memsetL_inside (byte : UInt8) {count dst : Nat} (mem : Mem) (whole : dst + count ≤ 2 ^ 64)
    (inside : offset < count) : memsetL byte count dst mem (dst + offset) = byte := by
  induction count generalizing dst offset mem with
  | zero => omega
  | succ count ih =>
    rw [memsetL]
    cases offset with
    | zero =>
      rw [memsetL_other _ _ (not_touches_before whole)]
      exact if_pos (Nat.mod_eq_of_lt (by omega)).symm
    | succ offset => rw [show dst + (offset + 1) = dst + 1 + offset by omega, ih _ (by omega) (by omega)]

theorem memcpyL_inside {count dst src : Nat} (mem : Mem) (wholeDst : dst + count ≤ 2 ^ 64)
    (wholeSrc : src + count ≤ 2 ^ 64) (apart : dst + count ≤ src ∨ src + count ≤ dst) (inside : offset < count) :
    memcpyL count dst src mem (dst + offset) = mem (src + offset) := by
  induction count generalizing dst src offset mem with
  | zero => omega
  | succ count ih =>
    have low : u64 dst = dst := Nat.mod_eq_of_lt (by omega)
    rw [memcpyL, low]
    cases offset with
    | zero =>
      rw [memcpyL_other _ (not_touches_before wholeDst)]
      have from' : u64 src = src := Nat.mod_eq_of_lt (by omega)
      simp only [Nat.add_zero, if_true, from']
    | succ offset =>
      rw [show dst + (offset + 1) = dst + 1 + offset by omega, ih _ (by omega) (by omega) (by omega) (by omega)]
      rw [show src + 1 + offset = src + (offset + 1) by omega]
      exact if_neg (by omega)

def Phdr.target (ph : Phdr) : Span := ⟨ph.vaddr, ph.memsz⟩

def Misses (first second : Span) : Prop := ∀ place, first.Holds place → ¬second.Holds place

/-- A segment whose file bytes fit into its memory, with no sum that wraps. -/
structure Phdr.Proper (ph : Phdr) : Prop where
  shorter : ph.filesz ≤ ph.memsz
  memory : ph.vaddr + ph.memsz ≤ 2 ^ 64
  file : ph.offset + ph.filesz < 2 ^ 64

theorem Phdr.Proper.covers_iff (proper : ph.Proper) : ph.Covers place ↔ ph.target.Holds place := by
  rw [Phdr.Covers, Nat.max_eq_left proper.shorter, touches_iff proper.memory, Phdr.target]

theorem Phdr.Proper.within (proper : ph.Proper) (fits : ph.Fits size) : ph.offset + ph.filesz ≤ size :=
  (show u64 (ph.offset + ph.filesz) = _ from Nat.mod_eq_of_lt proper.file) ▸ fits

theorem placed_inside (proper : ph.Proper) (bounded : data + size ≤ 2 ^ 64) (fits : ph.Fits size)
    (away : Misses ph.target ⟨data, size⟩) (mem : Mem) (inside : offset < ph.memsz) :
    placed data mem ph (ph.vaddr + offset) =
      if offset < ph.filesz then mem (data + ph.offset + offset) else 0 := by
  have shorter := proper.shorter
  have memory := proper.memory
  have within := proper.within fits
  split
  next file =>
    have source : u64 (data + ph.offset) = data + ph.offset := Nat.mod_eq_of_lt (by omega)
    have apart : ph.target.Apart ⟨data, size⟩ := Span.apart_of_not_both (by dsimp only [Phdr.target]; omega)
      (by dsimp only; omega) away
    have held : ¬Touches ph.vaddr ph.memsz (data + ph.offset + offset) := by
      rw [touches_iff memory]
      exact fun held => away _ held ⟨by dsimp only; omega, by dsimp only; omega⟩
    simp only [Span.Apart, Phdr.target] at apart
    rw [placed, source, memcpyL_inside _ (by omega) (by omega) (by omega) file, memsetL_other _ _ held]
  next zero =>
    have missed : ¬Touches ph.vaddr ph.filesz (ph.vaddr + offset) := by
      rw [touches_iff (by omega)]
      simp only [Span.Holds]
      omega
    rw [placed, memcpyL_other _ missed, memsetL_inside _ _ memory inside]

theorem foldl_placed_other {segments : List Phdr} (missed : ∀ ph ∈ segments, ¬ph.Covers place) (mem : Mem) :
    segments.foldl (placed data) mem place = mem place := by
  induction segments generalizing mem with
  | nil => rfl
  | cons ph rest ih =>
    obtain ⟨here, others⟩ := forall_mem_cons.mp missed
    rw [foldl_cons, ih others, placed_other data mem here]

theorem foldl_placed_inside {segments : List Phdr} (bounded : data + size ≤ 2 ^ 64)
    (proper : ∀ ph ∈ segments, ph.Proper) (fits : ∀ ph ∈ segments, ph.Fits size)
    (away : ∀ ph ∈ segments, Misses ph.target ⟨data, size⟩)
    (disjoint : segments.Pairwise fun first second => Misses first.target second.target) (mem : Mem)
    (member : ph ∈ segments) (inside : offset < ph.memsz) :
    segments.foldl (placed data) mem (ph.vaddr + offset) =
      if offset < ph.filesz then mem (data + ph.offset + offset) else 0 := by
  obtain ⟨before, after, rfl⟩ := append_of_mem member
  obtain ⟨-, tail, -⟩ := pairwise_append.mp disjoint
  have here : ph.target.Holds (ph.vaddr + offset) := ⟨by dsimp only [Phdr.target]; omega, by dsimp only [Phdr.target]; omega⟩
  have later : ∀ other ∈ after, ¬other.Covers (ph.vaddr + offset) := by
    intro other listed
    rw [(proper other (by simp [listed])).covers_iff]
    exact rel_of_pairwise_cons tail listed _ here
  have mine := proper ph member
  have within := mine.within (fits ph member)
  rw [foldl_append, foldl_cons, foldl_placed_other later,
    placed_inside mine bounded (fits ph member) (away ph member) _ inside]
  split
  next file =>
    apply foldl_placed_other
    intro other listed covered
    have held := (proper other (by simp [listed])).covers_iff.mp covered
    exact away other (by simp [listed]) _ held ⟨by dsimp only; omega, by dsimp only; omega⟩
  next => rfl

def segmentsOf (mem : Mem) (data : Nat) : List Phdr := (phdrsOf mem data).filter fun ph => ph.type = ptLoad

/-- The table lies in the file; segments do not wrap, and lie apart from each other and the
buffer. -/
structure WellFormed (mem : Mem) (data size : Nat) : Prop where
  table : (ehdrAt mem data).phoff + sizeofPhdr * phnumOf mem data ≤ size
  proper : ∀ ph ∈ segmentsOf mem data, ph.Proper
  disjoint : (segmentsOf mem data).Pairwise fun first second => Misses first.target second.target
  away : ∀ ph ∈ segmentsOf mem data, Misses ph.target ⟨data, size⟩

theorem mem_segmentsOf : ph ∈ segmentsOf mem data ↔ ph ∈ phdrsOf mem data ∧ ph.type = ptLoad := by
  simp [segmentsOf]

theorem phdrAddress_eq (bounded : data + size ≤ 2 ^ 64)
    (table : (ehdrAt mem data).phoff + sizeofPhdr * phnumOf mem data ≤ size) {index : Nat}
    (inside : index < phnumOf mem data) :
    phdrAddress (tableOf mem data) index = data + (ehdrAt mem data).phoff + sizeofPhdr * index := by
  simp only [sizeofPhdr] at table
  have start : tableOf mem data = data + (ehdrAt mem data).phoff := Nat.mod_eq_of_lt (by omega)
  rw [start]
  simp only [phdrAddress, sizeofPhdr]
  exact Nat.mod_eq_of_lt (by omega)

theorem Metadata.inside (bounded : data + size ≤ 2 ^ 64) (long : sizeofEhdr ≤ size)
    (table : (ehdrAt mem data).phoff + sizeofPhdr * phnumOf mem data ≤ size) (metadata : Metadata mem data place) :
    (Span.mk data size).Holds place := by
  rcases metadata with touched | ⟨index, inside, touched⟩
  · have here := (touches_iff (by omega)).mp touched
    simp only [Span.Holds] at here ⊢
    omega
  · rw [phdrAddress_eq bounded table inside] at touched
    simp only [sizeofPhdr] at table touched
    have here := (touches_iff (by omega)).mp touched
    simp only [Span.Holds] at here ⊢
    omega

theorem WellFormed.spares (wellFormed : WellFormed mem data size) (bounded : data + size ≤ 2 ^ 64)
    (long : sizeofEhdr ≤ size) : SparesHeaders mem data size := by
  intro ph placed place covered metadata
  obtain ⟨before, after, split, load, -⟩ := mem_outcome.mp placed
  have listed : ph ∈ phdrsOf mem data := by simp [split]
  have segment := mem_segmentsOf.mpr ⟨listed, load⟩
  have held := (wellFormed.proper ph segment).covers_iff.mp covered
  exact wellFormed.away ph segment place held (metadata.inside bounded long wellFormed.table)

theorem headers_congr (bounded : data + size ≤ 2 ^ 64) (long : sizeofEhdr ≤ size)
    (table : (ehdrAt mem data).phoff + sizeofPhdr * phnumOf mem data ≤ size)
    (agree : Mem.Agree now mem data size) : ehdrAt now data = ehdrAt mem data ∧ phdrsOf now data = phdrsOf mem data := by
  have same : SameHeaders mem data now := fun place metadata =>
    have held := metadata.inside bounded long table
    agree place held.1 held.2
  have phnum : phnumOf now data = phnumOf mem data := same.phnum
  have start : tableOf now data = tableOf mem data := by rw [tableOf, tableOf, same.ehdr]
  refine ⟨same.ehdr, ?_⟩
  rw [phdrsOf, phdrsOf, phnum]
  apply map_congr_left
  intro index member
  rw [phdrOf, start, same.phdr (mem_range.mp member)]

theorem outcome_true {phdrs : List Phdr} (done : (outcome size phdrs).2 = true) :
    (outcome size phdrs).1 = phdrs.filter (fun ph => ph.type = ptLoad) ∧
      ∀ ph ∈ phdrs, ph.type = ptLoad → ph.Fits size := by
  induction phdrs with
  | nil => simp [outcome]
  | cons first rest ih =>
    rw [outcome] at done ⊢
    by_cases load : first.type = ptLoad
    · by_cases fits : first.Fits size
      · simp only [load, ne_eq, not_true_eq_false, if_false, fits, if_true] at done ⊢
        obtain ⟨placed, all⟩ := ih done
        exact ⟨by simp [placed, load], forall_mem_cons.mpr ⟨fun _ => fits, all⟩⟩
      · simp [load, fits] at done
    · simp only [load, ne_eq, not_false_eq_true, if_true] at done ⊢
      obtain ⟨placed, all⟩ := ih done
      exact ⟨by simp [placed, load], forall_mem_cons.mpr ⟨fun is => absurd is load, all⟩⟩

theorem elfLoad_succeeds (spares : SparesHeaders mem data size) (accepts : Accepts mem data size)
    (segment : HasSegment mem data) (fits : ∀ ph ∈ segmentsOf mem data, ph.Fits size) :
    ∃ info, (elfLoad data size ⟨mem, [], []⟩).1 = some info := by
  obtain ⟨-, entry⟩ := @called_loads mem data size spares accepts segment
  cases done : (outcome size (phdrsOf mem data)).2 with
  | false =>
    obtain ⟨before, ph, after, split, load, large, -⟩ := outcome_false done
    exact absurd (fits ph (mem_segmentsOf.mpr ⟨by simp [split], load⟩)) large
  | true =>
    rw [done, if_pos rfl] at entry
    obtain ⟨info, loaded, -⟩ := map_eq_some_iff.mp entry
    exact ⟨info, loaded⟩

theorem elfLoad_image (bounded : data + size ≤ 2 ^ 64) (wellFormed : WellFormed mem data size) {info : Info}
    (loaded : (elfLoad data size ⟨mem, [], []⟩).1 = some info) :
    info.entry = (ehdrAt mem data).entry ∧ ∀ ph ∈ segmentsOf mem data, ph.Fits size ∧ ∀ offset < ph.memsz,
      (elfLoad data size ⟨mem, [], []⟩).2.mem (ph.vaddr + offset) =
        if offset < ph.filesz then mem (data + ph.offset + offset) else 0 := by
  change (called mem data size).1 = some info at loaded
  have accepts : Accepts mem data size := by
    by_contra rejected
    obtain ⟨reads, is, -⟩ := called_rejects rejected
    rw [is] at loaded
    cases loaded
  have segment : HasSegment mem data := by
    by_contra absent
    rw [called_empty accepts absent] at loaded
    cases loaded
  obtain ⟨effect, entry⟩ := called_loads (wellFormed.spares bounded accepts.2.1) accepts segment
  rw [loaded] at entry
  cases done : (outcome size (phdrsOf mem data)).2 with
  | false => simp [done] at entry
  | true =>
    obtain ⟨segments, fits⟩ := outcome_true done
    rw [done, if_pos rfl] at entry
    have all : ∀ ph ∈ segmentsOf mem data, ph.Fits size :=
      fun ph member => fits ph (mem_segmentsOf.mp member).1 (mem_segmentsOf.mp member).2
    refine ⟨Option.some.inj entry, fun ph member => ⟨all ph member, fun offset inside => ?_⟩⟩
    change (called mem data size).2.mem _ = _
    rw [effect.image, segments]
    exact foldl_placed_inside bounded wellFormed.proper all wellFormed.away wellFormed.disjoint mem member inside

end GWKernel.Elf

namespace GWKernel.Exec
open Lib Process Elf List Option

def prepared (state : Process.State) : Process.State :=
  let mem := state.mem.fill (userStackTop - 0x1000) 0x1000 0
  let proc := { state.currentProc with active := true, exitCode := -1 }
  if proc.pid = 0 then ⟨mem, { proc with pid := state.nextPid }, state.nextPid + 1, -1⟩
  else ⟨mem, proc, state.nextPid, -1⟩

theorem prepared_mem (state : Process.State) :
    (prepared state).mem = state.mem.fill (userStackTop - 0x1000) 0x1000 0 := by
  simp only [prepared]
  split <;> rfl

variable {π : Type} {allocPages : Heap.PageSource π}

/-- The entry point and the state with which `load_and_run` calls `process_switch_to_user`. -/
def entering (data size : Nat) (state : State π) : Option (Nat × Process.State) :=
  let loaded := elfLoad data size ⟨state.heap.mem, [], []⟩
  loaded.1.map fun info => (info.entry, prepared (state.withMem loaded.2.mem).process)

variable {fuel : Nat} {path bytes : List UInt8} {state ready : State π} {buf : Nat}

theorem fetch_bytes (fetched : fetch allocPages fuel path state = some ((buf, bytes), ready)) {offset : Nat}
    (inside : offset < bytes.length) : ready.heap.mem (buf + offset) = bytes.getD offset 0 := by
  simp only [fetch, bind_eq_bind, bind_eq_some_iff] at fetched
  obtain ⟨⟨pointer, heap⟩, -, fetched⟩ := fetched
  split at fetched
  · cases fetched
    simp at inside
  · obtain ⟨⟨read, vfs⟩, -, fetched⟩ := bind_eq_some_iff.mp fetched
    cases fetched
    have here : pointer ≤ pointer + offset ∧ pointer + offset < pointer + read.length := by
      dsimp only at inside
      omega
    change Mem.copy _ _ _ _ = _
    simp only [Mem.copy, here, and_self, if_true, Nat.add_sub_cancel_left]

theorem processExec_enters {entry : Nat} {process : Process.State}
    (fetched : fetch allocPages fuel path state = some ((buf, bytes), ready))
    (enters : entering buf bytes.length ready = some (entry, process)) (switchToUser : SwitchToUser) :
    processExec allocPages switchToUser fuel path state =
      let after := switchToUser entry userStackTop process
      (Heap.kfree fuel buf (ready.withProcess after).heap).map fun heap =>
        (after.lastExitCode, { ready.withProcess after with heap }) := by
  obtain ⟨info, loaded, is⟩ := map_eq_some_iff.mp enters
  obtain ⟨rfl, rfl⟩ := Prod.mk.inj is
  have proper : ¬(buf = 0 ∨ bytes.length < sizeofEhdr) := by
    intro early
    rw [elfLoad, if_pos early] at loaded
    cases loaded
  simp only [sizeofEhdr, not_or, Nat.not_lt] at proper
  have runs : loadAndRun switchToUser buf bytes.length ready =
      let after := switchToUser info.entry userStackTop
        (prepared (ready.withMem (elfLoad buf bytes.length ⟨ready.heap.mem, [], []⟩).2.mem).process)
      (after.lastExitCode, ready.withProcess after) := by
    unfold loadAndRun
    generalize elfLoad buf bytes.length ⟨ready.heap.mem, [], []⟩ = result at loaded ⊢
    obtain ⟨outcome, machine⟩ := result
    cases loaded
    rfl
  simp only [processExec, fetched, bind_eq_bind, bind_some, if_neg proper.1,
    if_pos (show bytes.length ≠ 0 by omega), runs]
  rw [map_eq_bind]
  rfl

def stackPage : Span := ⟨userStackTop - 0x1000, 0x1000⟩

theorem entering_byte {entry : Nat} {process : Process.State}
    (fetched : fetch allocPages fuel path state = some ((buf, bytes), ready))
    (enters : entering buf bytes.length ready = some (entry, process)) (bounded : buf + bytes.length ≤ 2 ^ 64)
    (wellFormed : WellFormed ready.heap.mem buf bytes.length) :
    entry = (ehdrAt ready.heap.mem buf).entry ∧
      ∀ ph ∈ segmentsOf ready.heap.mem buf, ∀ offset < ph.memsz, process.mem (ph.vaddr + offset) =
        if stackPage.Holds (ph.vaddr + offset) then 0
        else if offset < ph.filesz then bytes.getD (ph.offset + offset) 0 else 0 := by
  obtain ⟨info, loaded, is⟩ := map_eq_some_iff.mp enters
  obtain ⟨rfl, rfl⟩ := Prod.mk.inj is
  obtain ⟨entry, image⟩ := elfLoad_image bounded wellFormed loaded
  refine ⟨entry, fun ph member offset inside => ?_⟩
  obtain ⟨fits, byte⟩ := image ph member
  have within := (wellFormed.proper ph member).within fits
  rw [prepared_mem, Mem.fill]
  refine if_congr Iff.rfl rfl ((byte offset inside).trans ?_)
  split
  next file => rw [Nat.add_assoc, fetch_bytes fetched (by omega)]
  next => rfl

/-- When `process_exec` enters a well-formed file, every segment holds its file bytes followed by
zeros exactly when those that belong into the stack page are zero: `enter_at` clears it. -/
theorem processExec_image_iff {fuel : Nat} {path bytes : List UInt8} {state ready : State π} {buf entry : Nat}
    {process : Process.State} (fetched : fetch allocPages fuel path state = some ((buf, bytes), ready))
    (enters : entering buf bytes.length ready = some (entry, process)) (bounded : buf + bytes.length ≤ 2 ^ 64)
    (wellFormed : WellFormed ready.heap.mem buf bytes.length) :
    (entry = (ehdrAt ready.heap.mem buf).entry ∧
      ∀ switchToUser, processExec allocPages switchToUser fuel path state =
        let after := switchToUser entry userStackTop process
        (Heap.kfree fuel buf (ready.withProcess after).heap).map fun heap =>
          (after.lastExitCode, { ready.withProcess after with heap })) ∧
    ((∀ ph ∈ segmentsOf ready.heap.mem buf, ∀ offset < ph.memsz, process.mem (ph.vaddr + offset) =
        if offset < ph.filesz then bytes.getD (ph.offset + offset) 0 else 0) ↔
      ∀ ph ∈ segmentsOf ready.heap.mem buf, ∀ offset < ph.filesz, stackPage.Holds (ph.vaddr + offset) →
        bytes.getD (ph.offset + offset) 0 = 0) := by
  obtain ⟨start, found⟩ := entering_byte fetched enters bounded wellFormed
  refine ⟨⟨start, processExec_enters fetched enters⟩, ?_⟩
  constructor
  · intro holds ph member offset file stack
    have shorter := (wellFormed.proper ph member).shorter
    have held := holds ph member offset (by omega)
    rw [found ph member offset (by omega), if_pos stack, if_pos file] at held
    exact held.symm
  · intro zero ph member offset inside
    rw [found ph member offset inside]
    by_cases stack : stackPage.Holds (ph.vaddr + offset)
    · rw [if_pos stack]
      split
      next file => exact (zero ph member offset file stack).symm
      next => rfl
    · rw [if_neg stack]

def roomyHeap : Heap.State Unit where
  mem := ((Heap.setMagic (fun _ => 0) 0xFFFE8 Heap.heapMagicFree).put 0xFFFEC 4 0xFFFE8).put 0xFFFF8 4
    (Heap.not32 Heap.heapMagicFree)
  freeList := 0xFFFE8
  total := 0x100000
  used := 0
  ready := true
  pmm := ()

def installed (phdrs : List Phdr) : State Unit where
  heap := roomyHeap
  vfs :=
    { ram :=
        { nodes := fun n => if n = 1 then { Vfs.Node.zero with
              name := [0x61], type := .file, parent := some 0, size := 116, capacity := 116
              data := some fun place => executable phdrs (0x100000 + place) }
            else { Vfs.Node.zero with type := .dir, child := some 1 }
          nodeCount := 2
          low := fun _ => 0
          grants := []
          kmallocs := [] }
      cwd := 0
      drive := .c
      vol := ⟨0, 0, 0, 0, 0, 0, 0, 0, 0, false, 0, fun _ => 0, fun _ => false, fun _ => false⟩
      medium := ⟨fun _ _ => 0, fun _ => 0, []⟩ }
  name := []
  currentProc := ⟨0, false, 0⟩
  nextPid := 1
  lastExitCode := 0

def noPages : Heap.PageSource Unit := fun _ pmm => (0, pmm)

theorem installed_read (phdrs : List Phdr) :
    readFile 8 [0x61] (installed phdrs).vfs =
      some (Mem.slice (fun place => executable phdrs (0x100000 + place)) 0 116, (installed phdrs).vfs) := by
  rfl

theorem roomyHeap_kmalloc : (Heap.kmalloc noPages 8 execBufMax roomyHeap).map (fun result => result.1) = some 0x100000 := by
  decide +kernel

theorem installed_fetch (phdrs : List Phdr) : ∃ bytes ready,
    fetch noPages 8 [0x61] (installed phdrs) = some ((0x100000, bytes), ready) ∧ bytes.length = 116 ∧
      Mem.Agree ready.heap.mem (executable phdrs) 0x100000 116 := by
  obtain ⟨⟨pointer, heap⟩, allocated, is⟩ := map_eq_some_iff.mp roomyHeap_kmalloc
  dsimp only at is
  rw [is] at allocated
  have fetched : ∃ ready, fetch noPages 8 [0x61] (installed phdrs) =
      some ((0x100000, Mem.slice (fun place => executable phdrs (0x100000 + place)) 0 116), ready) := by
    unfold fetch
    rw [show (installed phdrs).heap = roomyHeap from rfl, allocated]
    dsimp only [bind_eq_bind, bind_some]
    rw [if_neg (by decide)]
    erw [installed_read phdrs]
    exact ⟨_, rfl⟩
  obtain ⟨ready, fetched⟩ := fetched
  refine ⟨_, ready, fetched, Mem.slice_length _ _ _, fun place low high => ?_⟩
  obtain ⟨offset, rfl⟩ := Nat.exists_eq_add_of_le low
  have inside : offset < (Mem.slice (fun place => executable phdrs (0x100000 + place)) 0 116).length := by
    rw [Mem.slice_length]
    omega
  rw [fetch_bytes fetched inside]
  refine (getElem_eq_getD 0).symm.trans ((Mem.slice_getElem _ inside).trans ?_)
  rw [Nat.zero_add]

def headerSegment (vaddr : Nat) : Phdr := ⟨ptLoad, 0, vaddr, 58, 64⟩

theorem installed_enters {vaddr : Nat} (low : 0x200000 ≤ vaddr) (high : vaddr < 2 ^ 32)
    (header : ehdrAt (executable [headerSegment vaddr]) 0x100000 =
      ⟨elfMagic, 2, etExec, emX8664, 0x400000, sizeofEhdr, sizeofPhdr, 1⟩)
    (headers : phdrsOf (executable [headerSegment vaddr]) 0x100000 = [headerSegment vaddr]) :
    ∃ bytes ready process,
      fetch noPages 8 [0x61] (installed [headerSegment vaddr]) = some ((0x100000, bytes), ready) ∧
      entering 0x100000 bytes.length ready = some (0x400000, process) ∧ bytes.length = 116 ∧
      WellFormed ready.heap.mem 0x100000 bytes.length ∧
      segmentsOf ready.heap.mem 0x100000 = [headerSegment vaddr] ∧
      Mem.Agree ready.heap.mem (executable [headerSegment vaddr]) 0x100000 116 := by
  obtain ⟨bytes, ready, fetched, length, agree⟩ := installed_fetch [headerSegment vaddr]
  have count : phnumOf (executable [headerSegment vaddr]) 0x100000 = 1 := congrArg Ehdr.phnum header
  obtain ⟨sameHeader, sameHeaders⟩ := headers_congr (by decide) (by decide) (by rw [header, count]; decide) agree
  rw [header] at sameHeader
  rw [headers] at sameHeaders
  have segments : segmentsOf ready.heap.mem 0x100000 = [headerSegment vaddr] := by
    rw [segmentsOf, sameHeaders]
    rfl
  have only : ∀ ph ∈ segmentsOf ready.heap.mem 0x100000, ph = headerSegment vaddr := by
    rw [segments]
    exact fun ph member => mem_singleton.mp member
  have formed : WellFormed ready.heap.mem 0x100000 116 := by
    refine ⟨?_, fun ph member => ?_, segments ▸ pairwise_singleton _ _, fun ph member => ?_⟩
    · rw [phnumOf, sameHeader]
      decide
    · obtain rfl := only ph member
      exact ⟨show 58 ≤ 64 by decide, by simp only [headerSegment]; omega, show 0 + 58 < 2 ^ 64 by decide⟩
    · obtain rfl := only ph member
      intro place held other
      simp only [headerSegment, Phdr.target, Span.Holds] at held other
      omega
  have accepts : Accepts ready.heap.mem 0x100000 116 := by
    rw [Accepts, sameHeader]
    decide
  have present : HasSegment ready.heap.mem 0x100000 := by
    refine ⟨headerSegment vaddr, by rw [sameHeaders]; exact mem_singleton_self _, rfl, ?_⟩
    simp only [headerSegment]
    omega
  have fits : ∀ ph ∈ segmentsOf ready.heap.mem 0x100000, ph.Fits 116 := by
    intro ph member
    obtain rfl := only ph member
    exact (show u64 (0 + 58) ≤ 116 by decide)
  obtain ⟨info, loaded⟩ := elfLoad_succeeds (formed.spares (by decide) (by decide)) accepts present fits
  obtain ⟨entry, -⟩ := elfLoad_image (by decide) formed loaded
  rw [sameHeader] at entry
  refine ⟨bytes, ready, prepared (ready.withMem (elfLoad 0x100000 116 ⟨ready.heap.mem, [], []⟩).2.mem).process,
    fetched, ?_, length, length ▸ formed, segments, agree⟩
  simp only [entering, length, loaded, map_some, entry]

theorem processExec_image_code : ∃ bytes ready process,
    fetch noPages 8 [0x61] (installed [headerSegment 0x400000]) = some ((0x100000, bytes), ready) ∧
      entering 0x100000 bytes.length ready = some (0x400000, process) ∧
      ∀ offset < 64, process.mem (0x400000 + offset) = if offset < 58 then bytes.getD (0 + offset) 0 else 0 := by
  obtain ⟨bytes, ready, process, fetched, enters, length, formed, segments, -⟩ :=
    @installed_enters 0x400000 (by decide) (by decide) (by decide +kernel) (by decide +kernel)
  obtain ⟨-, image⟩ := processExec_image_iff fetched enters (by rw [length]; decide) formed
  rw [segments] at image
  have below : ∀ offset < 58, ¬stackPage.Holds (0x400000 + offset) := by
    intro offset file stack
    have low : 0x402000 ≤ 0x400000 + offset := stack.1
    omega
  have all := image.mpr fun ph member offset file stack => by
    rw [mem_singleton.mp member, headerSegment] at file stack
    exact absurd stack (below offset file)
  exact ⟨bytes, ready, process, fetched, enters, all (headerSegment 0x400000) (mem_singleton_self _)⟩

/-- The ELF header, loaded to the start of the stack page, is gone when the program is entered. -/
theorem processExec_clears_segment : ∃ bytes ready process,
    fetch noPages 8 [0x61] (installed [headerSegment 0x402000]) = some ((0x100000, bytes), ready) ∧
      entering 0x100000 bytes.length ready = some (0x400000, process) ∧
      WellFormed ready.heap.mem 0x100000 bytes.length ∧
      segmentsOf ready.heap.mem 0x100000 = [headerSegment 0x402000] ∧
      bytes.getD 0 0 = 0x7F ∧ process.mem 0x402000 = 0 := by
  obtain ⟨bytes, ready, process, fetched, enters, length, formed, segments, agree⟩ :=
    @installed_enters 0x402000 (by decide) (by decide) (by decide +kernel) (by decide +kernel)
  obtain ⟨-, found⟩ := entering_byte fetched enters (by rw [length]; decide) formed
  rw [segments] at found
  have first : bytes.getD 0 0 = 0x7F := by
    rw [← fetch_bytes fetched (by omega), agree _ (by decide) (by decide)]
    decide +kernel
  refine ⟨bytes, ready, process, fetched, enters, formed, segments, first, ?_⟩
  exact (found (headerSegment 0x402000) (mem_singleton_self _) 0 (by decide)).trans (if_pos (by decide))

end GWKernel.Exec
