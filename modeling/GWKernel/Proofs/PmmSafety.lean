import GWKernel.Proofs.PmmAllocation

/-! The safety contract of the memory manager, from any accepted memory map and
along any run of allocations and releases. -/

namespace GWKernel.Pmm
open Lib List

/-- Some byte of the page lies in `[low, low + size)`. -/
def Touches (page low size : Nat) : Prop :=
  ∃ address, low ≤ address ∧ address < low + size ∧ address / pageSize = page

/-- Marking covers every page the region touches, as long as its end does not wrap. -/
theorem touches_marked {page low size : Nat} (bound : page < pmmMaxPages)
    (fits : low + size + pageSize ≤ 2 ^ 64 ∨ 2 ^ 32 ≤ low) (touches : Touches page low size) :
    Marked low size page := by
  obtain ⟨address, above, below, rfl⟩ := touches
  have limit : pmmMaxPages * pageSize = 2 ^ 32 := by decide
  have positive : 0 < pageSize := by decide
  rcases fits with fits | high
  · have value : u64 (low + size + pageSize - 1) = low + size + pageSize - 1 := Nat.mod_eq_of_lt (by omega)
    refine ⟨by omega, Nat.div_le_div_right above, ?_⟩
    rw [value, ← Nat.add_one_le_iff, ← Nat.add_div_right address positive]
    exact Nat.div_le_div_right (by omega)
  · have small := (Nat.div_lt_iff_lt_mul positive).mp bound
    omega

theorem marked_touches {low size page : Nat} (marked : Marked low size page) : Touches page low size := by
  obtain ⟨nonempty, above, below⟩ := marked
  have rounded : u64 (low + size + pageSize - 1) ≤ low + size + pageSize - 1 := Nat.mod_le _ _
  have upper := Nat.lt_of_lt_of_le below (Nat.div_le_div_right rounded)
  simp only [pageSize] at above upper ⊢
  refine ⟨max low (page * 4096), by omega, by omega, ?_⟩
  rw [pageSize]
  omega

variable {mem : Mem} {bi : Nat} {info : BootInfo} {state : State} {client : Client}

theorem protected_iff {page : Nat} (bound : page < pmmMaxPages)
    (buffer : info.memoryMap + info.memoryMapSize + pageSize ≤ 2 ^ 64) :
    Protected bi info page ↔ Touches page 0 0x100000 ∨
      info.kernelPhysicalBase ≠ 0 ∧ Touches page info.kernelPhysicalBase 0x100000 ∨ Touches page bi pageSize ∨
      Touches page info.memoryMap info.memoryMapSize := by
  have size : pageSize = 4096 := rfl
  constructor
  · rintro (first | ⟨present, kernel⟩ | stack | boot | ⟨_, map⟩)
    · exact .inl (marked_touches first)
    · exact .inr (.inl ⟨present, marked_touches kernel⟩)
    · obtain ⟨address, _, below, is⟩ := marked_touches stack
      exact .inl ⟨address, Nat.zero_le _, by omega, is⟩
    · exact .inr (.inr (.inl (marked_touches boot)))
    · exact .inr (.inr (.inr (marked_touches map)))
  · rintro (first | ⟨present, kernel⟩ | boot | map)
    · exact .inl (touches_marked bound (.inl (by omega)) first)
    · exact .inr (.inl ⟨present, touches_marked bound (by omega) kernel⟩)
    · exact .inr (.inr (.inr (.inl (touches_marked bound (by omega) boot))))
    · have marked := touches_marked bound (.inl buffer) map
      exact .inr (.inr (.inr (.inr ⟨marked.1, marked⟩)))

/-- `page` lies in an entry of a usable type that is completely contained in the map. -/
def InUsableEntry (mem : Mem) (info : BootInfo) (page : Nat) : Prop :=
  ∃ index, (index + 1) * descSize info ≤ info.memoryMapSize ∧
    let entry := descriptorAt mem (info.memoryMap + index * descSize info)
    usable entry.type = true ∧ entry.physicalStart / pageSize ≤ page ∧
      page < entry.physicalStart / pageSize + entry.numberOfPages

theorem mem_descriptors {entry : EfiMemoryDescriptor} : entry ∈ descriptors mem info ↔
    ∃ index, (index + 1) * descSize info ≤ info.memoryMapSize ∧
      descriptorAt mem (info.memoryMap + index * descSize info) = entry := by
  have positive : 0 < descSize info := Nat.lt_of_lt_of_le (by decide) (Nat.le_max_right _ _)
  simp only [descriptors, mem_map, mem_range, ← Nat.le_div_iff_mul_le positive, Nat.add_one_le_iff]

theorem covered_iff {page : Nat}
    (unwrapped : ∀ entry ∈ descriptors mem info, entry.physicalStart / pageSize + entry.numberOfPages < 2 ^ 64) :
    (∃ entry ∈ descriptors mem info, Covers entry page) ↔ InUsableEntry mem info page := by
  have covers : ∀ entry ∈ descriptors mem info, (Covers entry page ↔ usable entry.type = true ∧
      entry.physicalStart / pageSize ≤ page ∧ page < entry.physicalStart / pageSize + entry.numberOfPages) := by
    intro entry listed
    rw [Covers, u64, Nat.mod_eq_of_lt (unwrapped entry listed)]
  constructor
  · rintro ⟨entry, listed, covered⟩
    obtain ⟨index, inside, rfl⟩ := mem_descriptors.mp listed
    exact ⟨index, inside, (covers _ listed).mp covered⟩
  · rintro ⟨index, inside, covered⟩
    have listed := (@mem_descriptors mem info _).mpr ⟨index, inside, rfl⟩
    exact ⟨_, listed, (covers _ listed).mpr covered⟩

section
variable (accepted : pmmInit mem bi info = some state)
include accepted

/-- The pages that are free after `pmm_init`, as long as nothing wraps. -/
theorem free_after_init_iff
    (unwrapped : ∀ entry ∈ descriptors mem info, entry.physicalStart / pageSize + entry.numberOfPages < 2 ^ 64)
    (buffer : info.memoryMap + info.memoryMapSize + pageSize ≤ 2 ^ 64) (page : Nat) :
    (page < 2 ^ 20 → (bitmapTest state page = false ↔ InUsableEntry mem info page ∧ ¬Touches page 0 0x100000 ∧
      ¬(info.kernelPhysicalBase ≠ 0 ∧ Touches page info.kernelPhysicalBase 0x100000) ∧ ¬Touches page bi pageSize ∧
      ¬Touches page info.memoryMap info.memoryMapSize)) ∧
    (2 ^ 20 ≤ page → bitmapTest state page = true) := by
  have free := free_pmmInit accepted page
  constructor
  · intro bound
    refine free.trans ?_
    rw [Allocatable, covered_iff unwrapped, protected_iff bound buffer, not_or, not_or, not_or]
    exact and_iff_right bound
  · intro outside
    rw [← not_free, free]
    exact fun inside => Nat.not_lt.mpr outside inside.1

theorem sound_initial :
    Client.Sound (Allocatable mem bi info) ⟨state, []⟩ := by
  refine ⟨pmmInit_ready accepted, ?_, ?_, ?_, ?_, ?_, List.Pairwise.nil⟩
  · exact fun page inside => pmmInit_highestPage accepted inside
  · exact fun page free => (free_pmmInit accepted page).mp free
  all_goals
    intro held member
    cases member

omit accepted in
theorem page_zero_reserved (mem : Mem) (bi : Nat) (info : BootInfo) : ¬Allocatable mem bi info 0 := by
  intro inside
  exact inside.2.2 (.inl (by decide))

theorem Client.Sound.run {calls : List Call}
    (run : Run Step ⟨state, []⟩ calls client) : client.Sound (Allocatable mem bi info) :=
  run.preserves (fun _ _ _ sound moves => sound.step (page_zero_reserved mem bi info) moves) (sound_initial accepted)

end

theorem refusal_keeps {pool : Nat → Prop} (sound : client.Sound pool) (lowest : ¬pool 0)
    {count : Nat} {result : Nat × State}
    (outcome : (∃ start, result.1 = start * pageSize ∧ Takes client.pmm result.2 start count) ∨
      result = (0, client.pmm)) (refused : result.1 = 0) : result.2 = client.pmm := by
  rcases outcome with ⟨start, address, takes⟩ | same
  · obtain rfl : start = 0 := by
      rcases Nat.mul_eq_zero.mp (address.symm.trans refused) with zero | impossible
      · exact zero
      · exact absurd impossible (by decide)
    have positive := takes.nonempty
    exact absurd (sound.free 0 (takes.free 0 (by omega) (by omega))) lowest
  · rw [same]

private def freeCount (state : State) : Nat :=
  ((List.range state.highestPage).filter fun page => !bitmapTest state page).length

private theorem freeCount_lt {before after : State} {start : Nat} (takes : Takes before after start 1) :
    freeCount after < freeCount before := by
  have first := takes.free start (Nat.le_refl _) (by omega)
  have managed := takes.managed
  have listed : start ∈ (List.range before.highestPage).filter fun page => !bitmapTest before page := by
    rw [mem_filter]
    exact ⟨mem_range.mpr (by omega), by simpa [Free] using first⟩
  have smaller : ((List.range before.highestPage).filter fun page => !bitmapTest after page).Sublist
      (((List.range before.highestPage).filter fun page => !bitmapTest before page).erase start) := by
    rw [List.Nodup.erase_eq_filter (nodup_range.filter _), List.filter_filter]
    apply monotone_filter_right
    intro page open'
    have free : Free after page := by simpa [Free] using open'
    obtain ⟨stays, outside⟩ := (takes.taken page).mp free
    have different : page ≠ start := by omega
    simpa [different, Free] using stays
  unfold freeCount
  rw [takes.highest]
  have count := smaller.length_le
  have shorter := length_erase_of_mem listed
  have positive := length_pos_of_mem listed
  omega

/-- From any sound state, repeated calls of `pmm_alloc_page` reach a given free page. -/
theorem Client.Sound.hands_out {pool : Nat → Prop} (lowest : ¬pool 0) (sound : client.Sound pool) {page : Nat}
    (free : Free client.pmm page) :
    ∃ calls final, Run Step client calls final ∧ ∃ held ∈ final.outstanding, held.Holds page := by
  induction count : freeCount client.pmm using Nat.strongRecOn generalizing client with
  | ind n ih =>
    subst count
    have managed := sound.pool_lt page (sound.free page free)
    have run : HasRun client.pmm 1 := by
      refine ⟨page, managed, fun other low high => ?_⟩
      obtain rfl : other = page := by omega
      exact free
    obtain ⟨start, address, takes⟩ := pmmAllocPage_grants sound.ready run
    have nonzero : (pmmAllocPage client.pmm).1 ≠ 0 := by
      rw [address]
      refine Nat.mul_ne_zero ?_ (by decide)
      rintro rfl
      exact lowest (sound.free 0 (takes.free 0 (Nat.le_refl _) (by omega)))
    have moves := Step.allocPage client
    rw [Client.grant_some nonzero] at moves
    by_cases here : start = page
    · refine ⟨_, _, .next moves (.done _), _, mem_cons_self, ?_⟩
      rw [address, here]
      simp only [Allocation.Holds, Nat.mul_div_cancel page (show 0 < pageSize by decide)]
      omega
    · have later : Free (pmmAllocPage client.pmm).2 page := (takes.taken page).mpr ⟨free, by omega⟩
      obtain ⟨calls, final, run, holds⟩ := ih _ (freeCount_lt takes) (sound.step lowest moves) later rfl
      exact ⟨_, final, .next moves run, holds⟩

theorem handed_out_iff (accepted : pmmInit mem bi info = some state) (page : Nat) :
    (∃ calls client, Run Step ⟨state, []⟩ calls client ∧ ∃ held ∈ client.outstanding, held.Holds page) ↔
      Allocatable mem bi info page := by
  constructor
  · rintro ⟨calls, client, run, held, member, holds⟩
    exact ((Client.Sound.run accepted run).used held member page holds).1
  · intro offered
    exact (sound_initial accepted).hands_out (page_zero_reserved mem bi info) ((free_pmmInit accepted page).mpr offered)

/-- Outstanding allocations are disjoint, lie in usable memory below 4 GiB and avoid every
protected region; a result of 0 hands out nothing. -/
theorem outstanding_allocations_safe {mem : Mem} {bi : Nat} {info : BootInfo} {state : State}
    (accepted : pmmInit mem bi info = some state)
    (unwrapped : ∀ entry ∈ descriptors mem info, entry.physicalStart / pageSize + entry.numberOfPages < 2 ^ 64)
    (buffer : info.memoryMap + info.memoryMapSize + pageSize ≤ 2 ^ 64)
    {calls : List Call} {client : Client} (run : Run Step ⟨state, []⟩ calls client) :
    client.outstanding.Pairwise Allocation.Apart ∧
    (∀ held ∈ client.outstanding, held.phys % pageSize = 0 ∧ 0 < held.count ∧ ∀ page, held.Holds page →
      (∃ entry ∈ descriptors mem info, usable entry.type = true ∧ entry.physicalStart / pageSize ≤ page ∧
        page < entry.physicalStart / pageSize + entry.numberOfPages) ∧
      (page + 1) * pageSize ≤ 2 ^ 32 ∧ ¬Touches page 0 0x100000 ∧
      ¬Touches page info.kernelPhysicalBase 0x100000 ∧ ¬Touches page bi pageSize ∧
      ¬Touches page info.memoryMap info.memoryMapSize) ∧
    ((pmmAllocPage client.pmm).1 = 0 → (pmmAllocPage client.pmm).2 = client.pmm) ∧
    ∀ count, (pmmAllocPages count client.pmm).1 = 0 → (pmmAllocPages count client.pmm).2 = client.pmm := by
  have sound := Client.Sound.run accepted run
  have lowest := page_zero_reserved mem bi info
  refine ⟨sound.apart, ?_, refusal_keeps sound lowest (pmmAllocPage_spec client.pmm),
    fun count => refusal_keeps sound lowest (pmmAllocPages_spec count client.pmm)⟩
  intro held member
  refine ⟨?_, sound.nonempty held member, ?_⟩
  · rw [sound.aligned held member]
    exact Nat.mul_mod_left _ _
  · intro page holds
    obtain ⟨⟨bound, ⟨entry, listed, kind, low, high⟩, unprotected⟩, _⟩ := sound.used held member page holds
    have pages : pmmMaxPages * pageSize = 2 ^ 32 := by decide
    rw [protected_iff bound buffer, not_or, not_or, not_or] at unprotected
    obtain ⟨mebibyte, kernel, boot, map⟩ := unprotected
    refine ⟨⟨entry, listed, kind, low, ?_⟩, ?_, mebibyte, fun touches => ?_, boot, map⟩
    · rwa [u64, Nat.mod_eq_of_lt (unwrapped entry listed)] at high
    · exact pages ▸ Nat.mul_le_mul_right pageSize bound
    · by_cases absent : info.kernelPhysicalBase = 0
      · exact mebibyte (absent ▸ touches)
      · exact kernel ⟨absent, touches⟩

def singleDescriptor (address type start pages : Nat) : Mem :=
  Mem.put (Mem.put (Mem.put (fun _ => 0) address 4 type) (address + 8) 8 start) (address + 24) 8 pages

def smallMachine : Mem := singleDescriptor 0x310000 efiConventionalMemory 0x400000 64

def smallBootInfo : BootInfo where
  magic := gwBootMagic
  kernelPhysicalBase := 0x100000
  memoryMap := 0x310000
  memoryMapSize := 48
  memoryMapDescSize := 48

theorem smallMachine_descriptors :
    descriptors smallMachine smallBootInfo = [⟨efiConventionalMemory, 0x400000, 64⟩] := by
  decide

theorem smallMachine_allocatable {page : Nat} (low : 0x400 ≤ page) (high : page < 0x440) :
    Allocatable smallMachine 0x300000 smallBootInfo page := by
  refine ⟨by simp only [pmmMaxPages]; omega, ?_, ?_⟩
  · rw [smallMachine_descriptors]
    refine ⟨_, mem_cons_self, ?_⟩
    simp only [Covers, usable, pageSize, u64]
    refine ⟨by decide, by omega, by omega⟩
  · simp only [Protected, Marked, smallBootInfo, pageSize, u64]
    omega

theorem smallMachine_unwrapped : ∀ entry ∈ descriptors smallMachine smallBootInfo,
    entry.physicalStart / pageSize + entry.numberOfPages < 2 ^ 64 := by
  rw [smallMachine_descriptors]
  decide

theorem outstanding_allocations_safe_small_machine :
    ∃ state client, pmmInit smallMachine 0x300000 smallBootInfo = some state ∧
      Run Step ⟨state, []⟩ [.allocPage, .allocPages 2] client ∧
      client.outstanding.Pairwise Allocation.Apart := by
  obtain ⟨state, accepted⟩ := pmmInit_some smallMachine 0x300000 smallBootInfo
    (by decide) rfl (by decide)
  have run := Run.next (Step.allocPage ⟨state, []⟩) (.next (Step.allocPages _ 2) (.done _))
  exact ⟨state, _, accepted, run, (outstanding_allocations_safe accepted smallMachine_unwrapped (by decide) run).1⟩

theorem free_after_init_small_machine :
    ∃ state, pmmInit smallMachine 0x300000 smallBootInfo = some state ∧ bitmapTest state 0x400 = false := by
  obtain ⟨state, accepted⟩ := pmmInit_some smallMachine 0x300000 smallBootInfo (by decide) rfl (by decide)
  refine ⟨state, accepted, ((free_after_init_iff accepted smallMachine_unwrapped (by decide) 0x400).1 (by decide)).mpr ?_⟩
  have offered := @smallMachine_allocatable 0x400 (by decide) (by decide)
  rw [Allocatable, covered_iff smallMachine_unwrapped, protected_iff offered.1 (by decide), not_or, not_or, not_or] at offered
  exact offered.2

end GWKernel.Pmm
