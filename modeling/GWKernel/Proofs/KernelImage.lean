import GWKernel.Bootloader
import GWKernel.Proofs.PmmSafety

/-! The kernel image against the page allocator: `pmm_init` counts `EfiLoaderData` as free and
protects 1 MiB from the kernel's base, whatever the size of the image. -/

namespace GWKernel.Bootloader
open Lib Pmm

def Kernel.Holds (kernel : Kernel) (page : Nat) : Prop :=
  kernel.base / pageSize ≤ page ∧ page < kernel.base / pageSize + imagePages kernel.size

structure Firmware.Aligned (firmware : Firmware) : Prop where
  address : ∀ {pages address}, firmware.allocateAddress pages address = true → address % pageSize = 0
  any : ∀ {pages base}, firmware.allocateAnyPages pages = some base → base % pageSize = 0

theorem loadKernel_aligned {firmware : Firmware} (aligned : firmware.Aligned) {buffer : Nat} {mem after : Mem}
    {kernel : Kernel} (loaded : loadKernel firmware buffer mem = some (kernel, after)) : kernel.base % pageSize = 0 := by
  simp only [loadKernel, Option.bind_eq_bind] at loaded
  split at loaded
  · cases loaded
  split at loaded
  · cases loaded
  split at loaded
  · cases loaded
  simp only [Option.bind_eq_some_iff, Option.some.injEq, Prod.mk.injEq] at loaded
  obtain ⟨base, allocated, rfl, _⟩ := loaded
  unfold kernelPhys at allocated
  split at allocated
  next fixed =>
    cases allocated
    exact aligned.address fixed
  next => exact aligned.any allocated

section
variable {bi : Nat} {info : BootInfo} {page base : Nat} (aligned : base % pageSize = 0) (bound : page < pmmMaxPages)
  (known : info.kernelPhysicalBase = base)
include aligned bound known

theorem protected_head (low : base / pageSize ≤ page) (high : page < base / pageSize + 256) : Protected bi info page := by
  have limit : pmmMaxPages = 0x100000 := by decide
  simp only [pageSize] at aligned low high
  by_cases absent : base = 0
  · left
    simp only [Marked, u64, pageSize]
    omega
  · right; left
    simp only [known, Marked, u64, pageSize]
    omega

theorem unprotected_tail (beyond : base / pageSize + 256 ≤ page) (boot : ¬Touches page bi pageSize)
    (map : ¬Touches page info.memoryMap info.memoryMapSize) : ¬Protected bi info page := by
  have limit : pmmMaxPages = 0x100000 := by decide
  simp only [pageSize] at aligned beyond
  rintro (first | ⟨_, kernel⟩ | stub | bootInfo | ⟨_, buffer⟩)
  · simp only [Marked, u64, pageSize] at first
    omega
  · simp only [known, Marked, u64, pageSize] at kernel
    omega
  · simp only [Marked, u64, pageSize] at stub
    omega
  · exact boot (marked_touches bootInfo)
  · exact map (marked_touches buffer)

end

/-- No page of the image is ever handed out, exactly if the image has at most 256 pages or the
first page after 1 MiB of it is above 4 GiB. The map lists the image as `EfiLoaderData`. -/
theorem kernel_image_kept_iff {firmware : Firmware} (granular : firmware.Aligned) {buffer : Nat} {before after : Mem}
    {kernel : Kernel} (loaded : loadKernel firmware buffer before = some (kernel, after))
    {mem : Mem} {bi : Nat} {info : BootInfo} {state : State} (accepted : pmmInit mem bi info = some state)
    (known : info.kernelPhysicalBase = kernel.base)
    (listed : ∀ page, kernel.Holds page → ∃ entry ∈ descriptors mem info, entry.type = efiLoaderData ∧
      entry.physicalStart / pageSize ≤ page ∧ page < entry.physicalStart / pageSize + entry.numberOfPages ∧
      entry.physicalStart / pageSize + entry.numberOfPages < 2 ^ 64)
    (outside : ∀ page, kernel.Holds page → ¬Touches page bi pageSize ∧ ¬Touches page info.memoryMap info.memoryMapSize) :
    (∀ calls client, Run Step ⟨state, []⟩ calls client → ∀ held ∈ client.outstanding, ∀ page, kernel.Holds page →
      ¬held.Holds page) ↔
    imagePages kernel.size ≤ 256 ∨ pmmMaxPages ≤ kernel.base / pageSize + 256 := by
  have aligned := loadKernel_aligned granular loaded
  constructor
  · intro kept
    by_contra exposed
    simp only [not_or, Nat.not_le] at exposed
    -- The page just after the protected mebibyte belongs to the image.
    have holds : kernel.Holds (kernel.base / pageSize + 256) := ⟨by omega, by omega⟩
    obtain ⟨entry, member, kind, low, high, unwrapped⟩ := listed _ holds
    have covers : Covers entry (kernel.base / pageSize + 256) := by
      refine ⟨by rw [kind]; decide, low, ?_⟩
      rwa [u64, Nat.mod_eq_of_lt unwrapped]
    have offered : Allocatable mem bi info (kernel.base / pageSize + 256) :=
      ⟨exposed.2, ⟨entry, member, covers⟩,
        unprotected_tail aligned exposed.2 known (Nat.le_refl _) (outside _ holds).1 (outside _ holds).2⟩
    obtain ⟨calls, client, run, held, member, overlap⟩ := (handed_out_iff accepted _).mpr offered
    exact kept calls client run held member _ holds overlap
  · intro small calls client run held member page holds overlap
    obtain ⟨bound, _, unprotected⟩ := (handed_out_iff accepted page).mp ⟨calls, client, run, held, member, overlap⟩
    refine unprotected (protected_head aligned bound known holds.1 ?_)
    have last := holds.2
    omega

def bssKernel (memsz : Nat) : Mem :=
  let mem : Mem := Mem.put (Mem.put (fun _ => 0) 0 4 elfMagic) 18 2 emX8664
  let mem := Mem.put (Mem.put (Mem.put mem 24 8 0x200000) 32 8 64) 56 2 1
  let mem := Mem.put (Mem.put (Mem.put mem 64 4 ptLoad) 72 8 0x1000) 88 8 0x200000
  Mem.put mem 104 8 memsz

def obligingFirmware : Firmware where
  allocateAddress := fun _ address => address % pageSize == 0
  allocateAnyPages := fun _ => none

theorem obligingFirmware_aligned : obligingFirmware.Aligned where
  address granted := by simpa [obligingFirmware] using granted
  any granted := by cases granted

def imageMap (pages : Nat) : Mem := singleDescriptor 0x700000 efiLoaderData 0x200000 pages

def imageBootInfo : BootInfo where
  magic := gwBootMagic
  kernelPhysicalBase := 0x200000
  memoryMap := 0x700000
  memoryMapSize := 48
  memoryMapDescSize := 48

theorem kernel_image_kept_sixteen_pages :
    ∃ kernel after state, loadKernel obligingFirmware 0 (bssKernel 0x10000) = some (kernel, after) ∧
      pmmInit (imageMap 16) 0x710000 imageBootInfo = some state ∧
      ∀ calls client, Run Step ⟨state, []⟩ calls client → ∀ held ∈ client.outstanding, ∀ page, kernel.Holds page →
        ¬held.Holds page := by
  obtain ⟨after, loaded⟩ : ∃ after, loadKernel obligingFirmware 0 (bssKernel 0x10000) =
    some (⟨0x200000, 0x200000, 0x10000⟩, after) := ⟨_, rfl⟩
  obtain ⟨state, accepted⟩ := pmmInit_some (imageMap 16) 0x710000 imageBootInfo (by decide) rfl (by decide)
  have entries : descriptors (imageMap 16) imageBootInfo = [⟨efiLoaderData, 0x200000, 16⟩] := by decide
  have range : ∀ page, Kernel.Holds ⟨0x200000, 0x200000, 0x10000⟩ page → 0x200 ≤ page ∧ page < 0x210 := by
    intro page holds
    simp only [Kernel.Holds, imagePages, pageSize, u64] at holds
    omega
  refine ⟨_, after, state, loaded, accepted,
    (kernel_image_kept_iff obligingFirmware_aligned loaded accepted rfl ?_ ?_).mpr (.inl (by decide))⟩
  · intro page holds
    have between := range page holds
    rw [entries]
    refine ⟨_, List.mem_cons_self, rfl, ?_⟩
    simp only [pageSize]
    omega
  · intro page holds
    have between := range page holds
    constructor
    · rintro ⟨address, low, high, same⟩
      simp only [pageSize] at high same
      omega
    · rintro ⟨address, low, high, same⟩
      simp only [pageSize, imageBootInfo] at low high same
      omega

/-- Of an image of 257 pages, `pmm_alloc_page` hands out the last one. -/
theorem kernel_image_page_handed_out :
    ∃ kernel after state client, loadKernel obligingFirmware 0 (bssKernel 0x101000) = some (kernel, after) ∧
      pmmInit (imageMap 257) 0x710000 imageBootInfo = some state ∧ imageBootInfo.kernelPhysicalBase = kernel.base ∧
      Run Step ⟨state, []⟩ [.allocPage] client ∧
      ∃ held ∈ client.outstanding, ∃ page, kernel.Holds page ∧ held.Holds page := by
  obtain ⟨after, loaded⟩ : ∃ after, loadKernel obligingFirmware 0 (bssKernel 0x101000) =
    some (⟨0x200000, 0x200000, 0x101000⟩, after) := ⟨_, rfl⟩
  obtain ⟨state, accepted⟩ := pmmInit_some (imageMap 257) 0x710000 imageBootInfo (by decide) rfl (by decide)
  have entries : descriptors (imageMap 257) imageBootInfo = [⟨efiLoaderData, 0x200000, 257⟩] := by decide
  -- Page 0x300 is the only one that the map offers and nothing protects.
  have free : ∀ page, Free state page ↔ page = 0x300 := by
    intro page
    rw [free_pmmInit accepted page, Allocatable, entries]
    simp only [List.mem_singleton, exists_eq_left, Covers, Protected, Marked, imageBootInfo, pageSize, pmmMaxPages, u64]
    have kind : usable efiLoaderData = true := by decide
    simp only [kind, true_and]
    omega
  have managed := (pmmInit_highestPage accepted ((free_pmmInit accepted 0x300).mp ((free 0x300).mpr rfl)))
  have run : HasRun state 1 := by
    refine ⟨0x300, managed, fun page low high => (free page).mpr ?_⟩
    omega
  obtain ⟨start, address, takes⟩ := pmmAllocPage_grants (pmmInit_ready accepted) run
  obtain rfl : start = 0x300 := (free start).mp (takes.free start (Nat.le_refl _) (by omega))
  have granted : (pmmAllocPage state).1 ≠ 0 := by
    rw [address]
    decide
  refine ⟨_, after, state, _, loaded, accepted, rfl, .next (Step.allocPage _) (.done _), ⟨0x300 * pageSize, 1⟩, ?_,
    0x300, ?_, ?_⟩
  · rw [Client.grant_some granted, address]
    exact List.mem_cons_self
  · simp only [Kernel.Holds, imagePages, pageSize, u64]
    omega
  · simp only [Allocation.Holds, pageSize]
    omega

end GWKernel.Bootloader
