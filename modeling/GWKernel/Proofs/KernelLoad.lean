import GWKernel.Bootloader

/-! The memory that `load_kernel` leaves: each segment lies at its place in the image, provided
that the temporary buffer holds it. -/

namespace GWKernel.Bootloader
open Lib Pmm List

variable {firmware : Firmware} {file : File} {buffer low : Nat} {mem now after : Mem} {kernel : Kernel}

def File.ehdr (file : File) : Elf64Ehdr := ehdrAt file.bytes 0

def File.phdr (file : File) (index : Nat) : Elf64Phdr := phdrAt file.bytes (file.ehdr.phoff + index * Elf64Phdr.size)

def File.Loads (file : File) (index : Nat) : Prop := index < file.ehdr.phnum ∧ (file.phdr index).type = ptLoad

def File.read (file : File) : Nat := min file.size (maxPages * 4096)

/-- A kernel whose headers and segments lie in the first `limit` bytes of the file. No address
wraps, and no byte belongs to two segments. -/
structure File.Proper (file : File) (limit low : Nat) : Prop where
  header : 64 ≤ limit
  table : file.ehdr.phoff + file.ehdr.phnum * Elf64Phdr.size ≤ limit
  bytes : ∀ {index}, file.Loads index → (file.phdr index).offset + (file.phdr index).filesz ≤ limit
  shorter : ∀ {index}, file.Loads index → (file.phdr index).filesz ≤ (file.phdr index).memsz
  unwrapped : ∀ {index}, file.Loads index → (file.phdr index).paddr + (file.phdr index).memsz + 4095 < 2 ^ 64
  lowest : ∃ index, file.Loads index ∧ (file.phdr index).paddr = low
  above : ∀ {index}, file.Loads index → low ≤ (file.phdr index).paddr
  aligned : low % 4096 = 0
  disjoint : ∀ {one other}, file.Loads one → file.Loads other → one ≠ other → ∀ address,
    Span.Holds ⟨(file.phdr one).paddr, (file.phdr one).memsz⟩ address →
    ¬Span.Holds ⟨(file.phdr other).paddr, (file.phdr other).memsz⟩ address

def Unused (buffer pages base : Nat) : Prop :=
  base + pages * 4096 ≤ 2 ^ 64 ∧ (base + pages * 4096 ≤ buffer ∨ buffer + maxPages * 4096 ≤ base)

/-- The firmware hands out unused pages. -/
structure Firmware.Fresh (firmware : Firmware) (buffer : Nat) : Prop where
  address : ∀ {pages address}, firmware.allocateAddress pages address = true → Unused buffer pages address
  any : ∀ {pages base}, firmware.allocateAnyPages pages = some base → Unused buffer pages base

theorem readFile_at {offset : Nat} (inside : offset < file.read) :
    readFile file buffer mem (buffer + offset) = file.bytes offset := by
  have here : buffer ≤ buffer + offset ∧ buffer + offset < buffer + file.read := by omega
  unfold File.read at here
  simp only [readFile, here, and_self, if_true, Nat.add_sub_cancel_left]

def Buffered (file : File) (buffer : Nat) (now : Mem) : Prop := ∀ offset < file.read, now (buffer + offset) = file.bytes offset

section
variable (buffered : Buffered file buffer now)
include buffered

theorem Buffered.le {offset size : Nat} (inside : offset + size ≤ file.read) :
    now.le (buffer + offset) size = file.bytes.le offset size :=
  Mem.le_congr fun index below => by
    rw [Nat.add_assoc]
    exact buffered _ (by omega)

theorem Buffered.ehdr (header : 64 ≤ file.read) : ehdrAt now buffer = file.ehdr := by
  have start := @Buffered.le file buffer now buffered 0 4 (by omega)
  simp only [Nat.add_zero] at start
  simp only [File.ehdr, ehdrAt, Nat.zero_add]
  rw [start, buffered.le (by omega), buffered.le (by omega), buffered.le (by omega), buffered.le (by omega)]

theorem Buffered.phdr (table : file.ehdr.phoff + file.ehdr.phnum * Elf64Phdr.size ≤ file.read) {index : Nat}
    (listed : index < file.ehdr.phnum) :
    phdrAt now (buffer + file.ehdr.phoff + index * Elf64Phdr.size) = file.phdr index := by
  have inside : file.ehdr.phoff + index * Elf64Phdr.size + 56 ≤ file.read := by
    simp only [Elf64Phdr.size] at table ⊢
    omega
  simp only [File.phdr, phdrAt, Nat.add_assoc] at inside ⊢
  rw [buffered.le (by omega), buffered.le (by omega), buffered.le (by omega), buffered.le (by omega),
    buffered.le (by omega)]

end

theorem extend_low (phdrs : List Elf64Phdr) (range : Nat × Nat) :
    (phdrs.foldl extend range).1 ≤ range.1 ∧
      (∀ phdr ∈ phdrs, phdr.type = ptLoad → (phdrs.foldl extend range).1 ≤ phdr.paddr) ∧
      ((phdrs.foldl extend range).1 = range.1 ∨
        ∃ phdr ∈ phdrs, phdr.type = ptLoad ∧ (phdrs.foldl extend range).1 = phdr.paddr) := by
  induction phdrs generalizing range with
  | nil => exact ⟨Nat.le_refl _, fun _ none => (nomatch none), .inl rfl⟩
  | cons first rest ih =>
    obtain ⟨below, each, attained⟩ := ih (extend range first)
    rw [foldl_cons]
    by_cases load : first.type = ptLoad
    · have narrowed : (extend range first).1 = min range.1 first.paddr := by simp [extend, load]
      rw [narrowed] at below attained
      refine ⟨by omega, fun phdr member is => ?_, ?_⟩
      · rcases mem_cons.mp member with rfl | later
        · omega
        · exact each phdr later is
      · rcases attained with same | ⟨phdr, member, is, same⟩
        · rcases Nat.le_total range.1 first.paddr with small | large
          · exact .inl (by omega)
          · exact .inr ⟨first, mem_cons_self, load, by omega⟩
        · exact .inr ⟨phdr, mem_cons_of_mem _ member, is, same⟩
    · have kept : extend range first = range := by simp [extend, load]
      rw [kept] at below each attained ⊢
      refine ⟨below, fun phdr member is => ?_, ?_⟩
      · rcases mem_cons.mp member with rfl | later
        · exact absurd is load
        · exact each phdr later is
      · rcases attained with same | ⟨phdr, member, is, same⟩
        · exact .inl same
        · exact .inr ⟨phdr, mem_cons_of_mem _ member, is, same⟩

theorem extend_high (phdrs : List Elf64Phdr) (range : Nat × Nat) :
    (∀ phdr ∈ phdrs, phdr.type = ptLoad → u64 (phdr.paddr + phdr.memsz) ≤ (phdrs.foldl extend range).2) ∧
      range.2 ≤ (phdrs.foldl extend range).2 ∧
      ∀ bound, range.2 ≤ bound → (∀ phdr ∈ phdrs, phdr.type = ptLoad → u64 (phdr.paddr + phdr.memsz) ≤ bound) →
        (phdrs.foldl extend range).2 ≤ bound := by
  induction phdrs generalizing range with
  | nil => exact ⟨fun _ none => (nomatch none), Nat.le_refl _, fun _ start _ => start⟩
  | cons first rest ih =>
    obtain ⟨each, start, least⟩ := ih (extend range first)
    rw [foldl_cons]
    by_cases load : first.type = ptLoad
    · have widened : (extend range first).2 = max range.2 (u64 (first.paddr + first.memsz)) := by simp [extend, load]
      rw [widened] at start least
      refine ⟨fun phdr member is => ?_, by omega, fun bound low all => ?_⟩
      · rcases mem_cons.mp member with rfl | later
        · omega
        · exact each phdr later is
      · have here := all first mem_cons_self load
        exact least bound (by omega) fun phdr member => all phdr (mem_cons_of_mem _ member)
    · have kept : extend range first = range := by simp [extend, load]
      rw [kept] at each start least ⊢
      refine ⟨fun phdr member is => ?_, start, fun bound low all => ?_⟩
      · rcases mem_cons.mp member with rfl | later
        · exact absurd is load
        · exact each phdr later is
      · exact least bound low fun phdr member => all phdr (mem_cons_of_mem _ member)

theorem loadRange_spec (proper : file.Proper file.read low) (buffered : Buffered file buffer now) :
    ∃ high, loadRange now (buffer + file.ehdr.phoff) file.ehdr.phnum = (low, high) ∧ high + 4095 < 2 ^ 64 ∧
      ∀ {index}, file.Loads index → (file.phdr index).paddr + (file.phdr index).memsz ≤ high := by
  have listed : ((List.range file.ehdr.phnum).map fun index =>
      phdrAt now (buffer + file.ehdr.phoff + index * Elf64Phdr.size)) = (List.range file.ehdr.phnum).map file.phdr :=
    map_congr_left fun index member => buffered.phdr proper.table (mem_range.mp member)
  have loads : ∀ phdr ∈ (List.range file.ehdr.phnum).map file.phdr, phdr.type = ptLoad →
      ∃ index, file.Loads index ∧ file.phdr index = phdr := by
    intro phdr member is
    obtain ⟨index, inside, rfl⟩ := List.mem_map.mp member
    exact ⟨index, ⟨mem_range.mp inside, is⟩, rfl⟩
  have member : ∀ {index}, file.Loads index → file.phdr index ∈ (List.range file.ehdr.phnum).map file.phdr :=
    fun load => List.mem_map.mpr ⟨_, mem_range.mpr load.1, rfl⟩
  have narrow : ∀ {index}, file.Loads index → u64 ((file.phdr index).paddr + (file.phdr index).memsz) =
      (file.phdr index).paddr + (file.phdr index).memsz := fun load =>
    Nat.mod_eq_of_lt (by have small := proper.unwrapped load; omega)
  obtain ⟨_, each, attained⟩ := extend_low ((List.range file.ehdr.phnum).map file.phdr) (2 ^ 64 - 1, 0)
  obtain ⟨ends, _, least⟩ := extend_high ((List.range file.ehdr.phnum).map file.phdr) (2 ^ 64 - 1, 0)
  have whole : loadRange now (buffer + file.ehdr.phoff) file.ehdr.phnum =
      ((List.range file.ehdr.phnum).map file.phdr).foldl extend (2 ^ 64 - 1, 0) := by rw [loadRange, listed]
  rw [whole]
  generalize ((List.range file.ehdr.phnum).map file.phdr).foldl extend (2 ^ 64 - 1, 0) = range at each attained ends least ⊢
  obtain ⟨first, high⟩ := range
  obtain ⟨index, load, is⟩ := proper.lowest
  have reached : first = low := by
    have upper := each _ (member load) load.2
    have small := proper.unwrapped load
    rcases attained with top | ⟨phdr, inside, kind, same⟩
    · simp only at top upper
      omega
    · obtain ⟨other, found, rfl⟩ := loads phdr inside kind
      have lower := proper.above found
      simp only at upper same
      omega
  refine ⟨high, by rw [reached], ?_, fun load => ?_⟩
  · have bound := least (2 ^ 64 - 4096) (Nat.zero_le _) fun phdr inside kind => by
      obtain ⟨other, found, rfl⟩ := loads phdr inside kind
      rw [narrow found]
      have small := proper.unwrapped found
      omega
    simp only at bound
    omega
  · have upper := ends _ (member load) load.2
    rwa [narrow load] at upper

def File.target (file : File) (base low index : Nat) : Span :=
  ⟨base + ((file.phdr index).paddr - low), (file.phdr index).filesz⟩

/-- The image after the first `count` program headers: their segments are in place, and the rest
is blank. -/
structure Filled (file : File) (image : Span) (low : Nat) (start : Mem) (count : Nat) (now : Mem) : Prop where
  outside : Mem.ChangesOnly [image] start now
  content : ∀ {index}, index < count → file.Loads index → ∀ offset < (file.phdr index).filesz,
    now ((file.target image.start low index).start + offset) = file.bytes ((file.phdr index).offset + offset)
  blank : ∀ address, image.Holds address →
    (∀ index < count, file.Loads index → ¬(file.target image.start low index).Holds address) → now address = 0

section Segments

variable {image : Span} {high : Nat} (proper : file.Proper file.read low)
  (ends : ∀ {index}, file.Loads index → (file.phdr index).paddr + (file.phdr index).memsz ≤ high)
  (covers : high - low ≤ image.size) (bounded : image.start + image.size ≤ 2 ^ 64)
  (apart : image.Apart ⟨buffer, maxPages * 4096⟩)
include proper

theorem File.target_apart {one other address : Nat} (first : file.Loads one) (second : file.Loads other)
    (differ : one ≠ other) (held : (file.target image.start low one).Holds address) :
    ¬Span.Holds ⟨image.start + ((file.phdr other).paddr - low), (file.phdr other).memsz⟩ address := by
  intro also
  have shorter := proper.shorter first
  have above := proper.above first
  have aboveOther := proper.above second
  simp only [File.target, Span.Holds] at held also
  refine proper.disjoint first second differ (address + low - image.start) ?_ ?_
  · simp only [Span.Holds]
    omega
  · simp only [Span.Holds]
    omega

include apart

omit proper in
theorem Filled.buffered {count : Nat} {start : Mem} (filled : Filled file image low start count now)
    (buffered : Buffered file buffer start) : Buffered file buffer now := by
  intro offset inside
  rw [filled.outside _ fun span member held => ?_, buffered offset inside]
  obtain rfl := mem_singleton.mp member
  refine apart.not_both held ?_
  have small : file.read ≤ maxPages * 4096 := Nat.min_le_right _ _
  simp only [Span.Holds]
  omega

include ends covers bounded

theorem Filled.step {count : Nat} {start : Mem} (buffered : Buffered file buffer start)
    (listed : count < file.ehdr.phnum) (filled : Filled file image low start count now) :
    Filled file image low start (count + 1)
      (copySegment buffer image.start low (buffer + file.ehdr.phoff) count now) := by
  have still := filled.buffered apart buffered
  have header : phdrAt now (buffer + file.ehdr.phoff + count * Elf64Phdr.size) = file.phdr count :=
    still.phdr proper.table listed
  simp only [copySegment, header]
  split
  next other =>
    have skip : ∀ {index}, index < count + 1 → file.Loads index → index < count := fun {index} below load => by
      rcases Nat.lt_succ_iff_lt_or_eq.mp below with earlier | rfl
      · exact earlier
      · exact absurd load.2 other
    exact ⟨filled.outside, fun below load => filled.content (skip below load) load, fun address held none =>
      filled.blank address held fun index below load => none index (by omega) load⟩
  next is =>
    have load : file.Loads count := ⟨listed, not_not.mp is⟩
    have shorter := proper.shorter load
    have above := proper.above load
    have last := ends load
    have source : now.slice (buffer + (file.phdr count).offset) (file.phdr count).filesz =
        file.bytes.slice (file.phdr count).offset (file.phdr count).filesz := by
      refine map_congr_left fun index member => ?_
      have below := mem_range.mp member
      have inside := proper.bytes load
      rw [Nat.add_assoc]
      exact still _ (by omega)
    rw [source]
    by_cases empty : (file.phdr count).filesz = 0
    · -- Nothing is copied; the address may be the end of the address space.
      have nothing : now.copy (u64 (image.start + ((file.phdr count).paddr + 2 ^ 64 - low)))
          (file.bytes.slice (file.phdr count).offset (file.phdr count).filesz) = now := by
        funext address
        rw [Mem.copy, if_neg]
        simp only [Mem.slice_length, empty]
        omega
      rw [nothing]
      refine ⟨filled.outside, fun {index} below load => ?_, fun address held none =>
        filled.blank address held fun index below load => none index (by omega) load⟩
      rcases Nat.lt_succ_iff_lt_or_eq.mp below with earlier | rfl
      · exact filled.content earlier load
      · intro offset inside
        omega
    have place : u64 (image.start + ((file.phdr count).paddr + 2 ^ 64 - low)) =
        (file.target image.start low count).start := by
      simp only [File.target, u64]
      omega
    rw [place]
    have size : (file.bytes.slice (file.phdr count).offset (file.phdr count).filesz).length =
        (file.target image.start low count).size := Mem.slice_length _ _ _
    have within : ∀ address, (file.target image.start low count).Holds address → image.Holds address := by
      intro address held
      simp only [File.target, Span.Holds] at held ⊢
      omega
    have away : ∀ address, ¬(file.target image.start low count).Holds address →
        now.copy (file.target image.start low count).start
          (file.bytes.slice (file.phdr count).offset (file.phdr count).filesz) address = now address := by
      intro address missed
      rw [Mem.copy, size]
      exact if_neg missed
    refine ⟨fun address out => ?_, fun {index} below loaded offset inside => ?_, fun address held none => ?_⟩
    · rw [away address fun held => out image mem_cons_self (within address held)]
      exact filled.outside address out
    · rcases Nat.lt_succ_iff_lt_or_eq.mp below with earlier | rfl
      · have missed : ¬(file.target image.start low count).Holds
            ((file.target image.start low index).start + offset) := by
          intro held
          have covered := File.target_apart proper load loaded (by omega) held
          apply covered
          have longer := proper.shorter loaded
          simp only [File.target, Span.Holds]
          omega
        rw [away _ missed]
        exact filled.content earlier loaded offset inside
      · have here : (file.target image.start low index).start ≤ (file.target image.start low index).start + offset ∧
            (file.target image.start low index).start + offset < (file.target image.start low index).start +
              (file.bytes.slice (file.phdr index).offset (file.phdr index).filesz).length := by
          rw [Mem.slice_length]
          omega
        rw [Mem.copy, if_pos here, Nat.add_sub_cancel_left, ← getElem_eq_getD (h := by simpa using inside),
          Mem.slice_getElem]
    · rw [away address (none count (by omega) load)]
      exact filled.blank address held fun index below loaded => none index (by omega) loaded

end Segments

theorem imagePages_covers {size : Nat} (small : size + 4095 < 2 ^ 64) : size ≤ imagePages size * 4096 := by
  rw [imagePages, u64, Nat.mod_eq_of_lt small]
  omega

def imageWrites (file : File) (kernel : Kernel) (low : Nat) : List Span :=
  ⟨kernel.base, imagePages kernel.size * 4096⟩ ::
    ((List.range file.ehdr.phnum).filter fun index => (file.phdr index).type = ptLoad).map fun index =>
      ⟨u64 (kernel.base + ((file.phdr index).paddr + 2 ^ 64 - low)), (file.phdr index).filesz⟩

theorem loadKernelFile_filled (proper : file.Proper file.read low) (fresh : firmware.Fresh buffer)
    (bounded : buffer + maxPages * 4096 ≤ 2 ^ 64)
    (loaded : loadKernelFile firmware (some buffer) file mem = some (kernel, after)) :
    (∀ {index}, file.Loads index → (file.phdr index).paddr + (file.phdr index).memsz - low ≤ imagePages kernel.size * 4096) ∧
      kernel.base + imagePages kernel.size * 4096 ≤ 2 ^ 64 ∧
      kernel.entry = u64 (kernel.base + (file.ehdr.entry + 2 ^ 64 - low)) ∧
      Filled file ⟨kernel.base, imagePages kernel.size * 4096⟩ low (readFile file buffer mem) file.ehdr.phnum after := by
  have buffered : Buffered file buffer (readFile file buffer mem) := fun offset inside => readFile_at inside
  obtain ⟨high, range, small, ends⟩ := loadRange_spec proper buffered
  have table : u64 (buffer + file.ehdr.phoff) = buffer + file.ehdr.phoff := by
    obtain ⟨index, load, _⟩ := proper.lowest
    have listed := load.1
    have inside := proper.table
    have read : file.read ≤ maxPages * 4096 := Nat.min_le_right _ _
    simp only [Elf64Phdr.size] at inside
    exact Nat.mod_eq_of_lt (by omega)
  have size : u64 (high + 2 ^ 64 - low) = high - low := by
    obtain ⟨index, load, is⟩ := proper.lowest
    have last := ends load
    unfold u64
    omega
  have enough : high - low ≤ imagePages (high - low) * 4096 := imagePages_covers (by omega)
  change loadKernel firmware buffer (readFile file buffer mem) = some (kernel, after) at loaded
  simp only [loadKernel, Option.bind_eq_bind, buffered.ehdr proper.header, table, range, size] at loaded
  split at loaded
  · cases loaded
  split at loaded
  · cases loaded
  split at loaded
  · cases loaded
  obtain ⟨base, allocated, same⟩ := Option.bind_eq_some_iff.mp loaded
  obtain ⟨rfl, rfl⟩ := Prod.mk.inj (Option.some.inj same)
  have unused : Unused buffer (imagePages (high - low)) base := by
    unfold kernelPhys at allocated
    split at allocated
    next granted =>
      cases allocated
      exact fresh.address granted
    next => exact fresh.any allocated
  refine ⟨fun load => ?_, unused.1, rfl, ?_⟩
  · exact (Nat.sub_le_sub_right (ends load) low).trans enough
  · have start : Filled file ⟨base, imagePages (high - low) * 4096⟩ low (readFile file buffer mem) 0
        ((readFile file buffer mem).fill base (imagePages (high - low) * 4096) 0) := by
      refine ⟨Mem.fill_changes _ _ (Nat.le_refl _) (Nat.le_refl _), fun below => absurd below (Nat.not_lt_zero _),
        fun address held _ => ?_⟩
      rw [Mem.fill]
      exact if_pos held
    refine forRange_rule _ _ (Filled file ⟨base, imagePages (high - low) * 4096⟩ low (readFile file buffer mem))
      (Nat.zero_le _) start fun count now _ below filled => ?_
    exact @Filled.step _ buffer _ _ ⟨base, imagePages (high - low) * 4096⟩ _ proper ends enough unused.1 unused.2 _ _
      buffered below filled

/-- A kernel that lies in the part of the file that is read is loaded as its headers say, and
nothing but the pages of the image is written. -/
theorem loadKernelFile_places (proper : file.Proper file.read low) (fresh : firmware.Fresh buffer)
    (bounded : buffer + maxPages * 4096 ≤ 2 ^ 64)
    (loaded : loadKernelFile firmware (some buffer) file mem = some (kernel, after)) :
    (∀ index, file.Loads index → after.slice (kernel.base + ((file.phdr index).paddr - low)) (file.phdr index).memsz =
      file.bytes.slice (file.phdr index).offset (file.phdr index).filesz ++
        List.replicate ((file.phdr index).memsz - (file.phdr index).filesz) 0) ∧
    u64 (kernel.entry + 2 ^ 64 - kernel.base) = u64 (file.ehdr.entry + 2 ^ 64 - low) ∧
    (∀ span ∈ imageWrites file kernel low, ∀ address, span.Holds address →
      Span.Holds ⟨kernel.base, imagePages kernel.size * 4096⟩ address) ∧
    Mem.ChangesOnly [⟨kernel.base, imagePages kernel.size * 4096⟩] (readFile file buffer mem) after := by
  obtain ⟨ends, fits, entry, filled⟩ := loadKernelFile_filled proper fresh bounded loaded
  refine ⟨fun index load => ?_, ?_, fun span member address held => ?_, filled.outside⟩
  · have shorter := proper.shorter load
    have above := proper.above load
    have last := ends load
    refine ext_getElem (by simp; omega) fun offset inside _ => ?_
    rw [Mem.slice_length] at inside
    rw [Mem.slice_getElem]
    by_cases fromFile : offset < (file.phdr index).filesz
    · rw [getElem_append_left (by simpa using fromFile), Mem.slice_getElem]
      exact filled.content load.1 load offset fromFile
    · rw [getElem_append_right (by simpa using fromFile), getElem_replicate]
      refine filled.blank _ ?_ fun other _ loaded held => ?_
      · simp only [Span.Holds]
        omega
      · by_cases same : other = index
        · subst same
          simp only [File.target, Span.Holds] at held
          omega
        · refine File.target_apart proper loaded load same held ?_
          simp only [Span.Holds]
          omega
  · obtain ⟨index, load, is⟩ := proper.lowest
    have narrow := proper.unwrapped load
    rw [entry]
    unfold u64
    omega
  · rcases mem_cons.mp member with rfl | later
    · exact held
    · obtain ⟨index, listed, rfl⟩ := List.mem_map.mp later
      obtain ⟨inside, kind⟩ := mem_filter.mp listed
      have load : file.Loads index := ⟨mem_range.mp inside, of_decide_eq_true kind⟩
      have shorter := proper.shorter load
      have above := proper.above load
      have last := ends load
      simp only [Span.Holds] at held ⊢
      unfold u64 at held
      omega

def tinyKernel (offset : Nat) : File where
  size := offset + 1
  bytes :=
    let mem : Mem := Mem.put (Mem.put (fun _ => 0) 0 4 elfMagic) 18 2 emX8664
    let mem := Mem.put (Mem.put (Mem.put mem 24 8 0x200001) 32 8 64) 56 2 1
    let mem := Mem.put (Mem.put (Mem.put mem 64 4 ptLoad) 72 8 offset) 88 8 0x200000
    Mem.put (Mem.put (Mem.put mem 96 8 1) 104 8 2) offset 1 0x5A

theorem tinyKernel_proper {offset : Nat} (placed : offset = 0x1000 ∨ offset = 0x200000) :
    (tinyKernel offset).Proper (tinyKernel offset).size 0x200000 := by
  have header : (tinyKernel offset).ehdr.phoff = 64 ∧ (tinyKernel offset).ehdr.phnum = 1 ∧
      (tinyKernel offset).phdr 0 = ⟨ptLoad, offset, 0x200000, 1, 2⟩ := by
    rcases placed with rfl | rfl <;> decide +kernel
  obtain ⟨phoff, phnum, phdr⟩ := header
  have only : ∀ {index}, (tinyKernel offset).Loads index → index = 0 := fun load => by
    have below := load.1
    omega
  have size : (tinyKernel offset).size = offset + 1 := rfl
  refine ⟨by omega, ?_, fun load => ?_, fun load => ?_, fun load => ?_, ⟨0, ⟨by omega, by rw [phdr]⟩, by rw [phdr]⟩,
    fun load => ?_, rfl, fun one other differ => ?_⟩
  · simp only [phoff, phnum, Elf64Phdr.size]
    omega
  · rw [only load, phdr, size]
  · rw [only load, phdr]
    exact Nat.le_succ 1
  · rw [only load, phdr]
    simp only
    omega
  · rw [only load, phdr]
  · exact absurd ((only one).trans (only other).symm) differ

def lastPage : Firmware where
  allocateAddress := fun _ _ => false
  allocateAnyPages := fun pages => if pages = 1 then some 0x300000 else none

theorem lastPage_fresh : lastPage.Fresh 0x400000 where
  address granted := by cases granted
  any granted := by
    simp only [lastPage] at granted
    split at granted
    next one =>
      cases granted
      subst one
      exact ⟨by decide, by decide⟩
    next => cases granted

theorem loadKernelFile_places_tiny : ∃ kernel after,
    loadKernelFile lastPage (some 0x400000) (tinyKernel 0x1000) (fun _ => 0xFF) = some (kernel, after) ∧
      after.slice 0x300000 2 = [0x5A, 0] ∧ kernel.entry = 0x300001 := by
  have ran : (loadKernelFile lastPage (some 0x400000) (tinyKernel 0x1000) fun _ => 0xFF).map Prod.fst =
      some ⟨0x300001, 0x300000, 2⟩ := by decide +kernel
  obtain ⟨⟨kernel, after⟩, loaded, rfl⟩ := Option.map_eq_some_iff.mp ran
  have proper : (tinyKernel 0x1000).Proper (tinyKernel 0x1000).read 0x200000 := tinyKernel_proper (.inl rfl)
  have places := (loadKernelFile_places proper lastPage_fresh (by decide) loaded).1 0
    ⟨by decide +kernel, by decide +kernel⟩
  refine ⟨_, after, loaded, ?_, rfl⟩
  exact places.trans (by decide +kernel)

/-- A segment that begins at 2 MiB of the file is not read: what follows the buffer is loaded in
its place. -/
theorem large_kernel_garbled : ∃ kernel after,
    (tinyKernel 0x200000).Proper (tinyKernel 0x200000).size 0x200000 ∧ (tinyKernel 0x200000).Loads 0 ∧
      lastPage.Fresh 0x400000 ∧
      loadKernelFile lastPage (some 0x400000) (tinyKernel 0x200000) (fun _ => 0xFF) = some (kernel, after) ∧
      (tinyKernel 0x200000).bytes ((tinyKernel 0x200000).phdr 0).offset = 0x5A ∧ after kernel.base = 0xFF := by
  have ran : (loadKernelFile lastPage (some 0x400000) (tinyKernel 0x200000) fun _ => 0xFF).map (fun result =>
      result.2 result.1.base) = some 0xFF := by decide +kernel
  obtain ⟨⟨kernel, after⟩, loaded, garbled⟩ := Option.map_eq_some_iff.mp ran
  exact ⟨kernel, after, tinyKernel_proper (.inr rfl), ⟨by decide +kernel, by decide +kernel⟩, lastPage_fresh, loaded,
    by decide +kernel, garbled⟩

end GWKernel.Bootloader
