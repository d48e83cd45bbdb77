import GWKernel.Lib.Run
import GWKernel.Lib.Memory
import GWKernel.Lib.Word

/-! The physical memory manager (kernel/mm/pmm.c): a bitmap over the 4 KiB pages below 4 GiB,
filled from the UEFI memory map. -/

namespace GWKernel.Pmm
open Lib

def pageSize : Nat := 4096
def pmmMaxPages : Nat := 1024 * 1024
def gwBootMagic : Nat := 0x31425747

def efiLoaderCode : Nat := 1
def efiLoaderData : Nat := 2
def efiBootServicesCode : Nat := 3
def efiBootServicesData : Nat := 4
def efiConventionalMemory : Nat := 7

structure EfiMemoryDescriptor where
  type : Nat
  physicalStart : Nat
  numberOfPages : Nat
deriving DecidableEq, Repr

def EfiMemoryDescriptor.size : Nat := 40

/-- The fields of `GW_BOOT_INFO` that the memory manager reads. -/
structure BootInfo where
  magic : Nat
  kernelPhysicalBase : Nat
  memoryMap : Nat
  memoryMapSize : Nat
  memoryMapDescSize : Nat
deriving DecidableEq, Repr

/-- The static variables of pmm.c. A page has one bit of a byte of `pmm_bitmap`; a set bit means used. -/
structure State where
  bitmap : Nat → BitVec 8
  total : Nat
  used : Nat
  highestPage : Nat
  ready : Bool

def bitmapSet (state : State) (page : Nat) : State :=
  if pmmMaxPages ≤ page then state
  else { state with bitmap := Function.update state.bitmap (page / 8) (state.bitmap (page / 8) ||| 1#8 <<< (page % 8)) }

def bitmapClear (state : State) (page : Nat) : State :=
  if pmmMaxPages ≤ page then state
  else { state with bitmap := Function.update state.bitmap (page / 8) (state.bitmap (page / 8) &&& ~~~(1#8 <<< (page % 8))) }

/-- Pages out of range count as used. -/
def bitmapTest (state : State) (page : Nat) : Bool :=
  if pmmMaxPages ≤ page then true else state.bitmap (page / 8) >>> (page % 8) &&& 1#8 != 0#8

def markPageUsed (page : Nat) (state : State) : State :=
  if bitmapTest state page then state else { bitmapSet state page with used := u64 (state.used + 1) }

def markRangeUsed (state : State) (phys size : Nat) : State :=
  if size = 0 then state
  else forRange (phys / pageSize) (min (u64 (phys + size + pageSize - 1) / pageSize) pmmMaxPages) markPageUsed state

def pmmMarkUsed (state : State) (phys size : Nat) : State := markRangeUsed state phys size

def descriptorAt (mem : Mem) (address : Nat) : EfiMemoryDescriptor where
  type := mem.le address 4
  physicalStart := mem.le (address + 8) 8
  numberOfPages := mem.le (address + 24) 8

def descSize (info : BootInfo) : Nat := max info.memoryMapDescSize EfiMemoryDescriptor.size

/-- The entries the loop `while (map + desc_size <= end)` visits, in order. -/
def descriptors (mem : Mem) (info : BootInfo) : List EfiMemoryDescriptor :=
  (List.range (info.memoryMapSize / descSize info)).map fun index =>
    descriptorAt mem (info.memoryMap + index * descSize info)

def usable (type : Nat) : Bool :=
  type == efiConventionalMemory || type == efiBootServicesCode || type == efiBootServicesData ||
    type == efiLoaderCode || type == efiLoaderData

def clearPage (page : Nat) (state : State) : State :=
  if bitmapTest state page then bitmapClear state page else state

/-- One round of the descriptor loop of `pmm_init`. -/
def scanDescriptor (state : State) (entry : EfiMemoryDescriptor) : State :=
  let start := entry.physicalStart / pageSize
  let past := u64 (start + entry.numberOfPages)
  let state := { state with highestPage := max state.highestPage past }
  if usable entry.type ∧ start < pmmMaxPages then
    let last := min past pmmMaxPages
    let state := forRange start last clearPage state
    { state with total := u64 (state.total + (last + 2 ^ 64 - start)) }
  else state

def countUsed (page : Nat) (state : State) : State :=
  if bitmapTest state page then { state with used := u64 (state.used + 1) } else state

/-- `pmm_init` on the boot information at address `bi`; `none` is the result -1. -/
def pmmInit (mem : Mem) (bi : Nat) (info : BootInfo) : Option State :=
  if bi = 0 ∨ info.magic ≠ gwBootMagic ∨ info.memoryMap = 0 then none
  else
    let state : State := { bitmap := fun _ => 0xFF#8, total := 0, used := 0, highestPage := 0, ready := false }
    let state := (descriptors mem info).foldl scanDescriptor state
    let state := { state with highestPage := min state.highestPage pmmMaxPages }
    let state := forRange 0 state.highestPage countUsed { state with used := 0 }
    let state := markRangeUsed state 0 0x100000
    let state := if info.kernelPhysicalBase = 0 then state
      else markRangeUsed state info.kernelPhysicalBase (1024 * 1024)
    let state := markRangeUsed state 0x80000 0x10000
    let state := markRangeUsed state bi pageSize
    let state := if info.memoryMapSize = 0 then state
      else markRangeUsed state info.memoryMap info.memoryMapSize
    some { state with ready := true }

def findPage (state : State) : List Nat → Option Nat
  | [] => none
  | page :: pages => if bitmapTest state page then findPage state pages else some page

/-- `pmm_alloc_page`: the physical address, or 0. -/
def pmmAllocPage (state : State) : Nat × State :=
  if state.ready then
    match findPage state (List.range state.highestPage) with
    | some page => (page * pageSize, { bitmapSet state page with used := u64 (state.used + 1) })
    | none => (0, state)
  else (0, state)

/-- The search of `pmm_alloc_pages` with its counters `run` and `start`. -/
def findRun (state : State) (count : Nat) : List Nat → Nat → Nat → Option Nat
  | [], _, _ => none
  | page :: pages, run, start =>
    if bitmapTest state page then findRun state count pages 0 start
    else
      let start := if run = 0 then page else start
      if run + 1 = count then some start else findRun state count pages (run + 1) start

def takePage (start index : Nat) (state : State) : State :=
  { bitmapSet state (start + index) with used := u64 (state.used + 1) }

/-- `pmm_alloc_pages`: the physical address of the run, or 0. -/
def pmmAllocPages (count : Nat) (state : State) : Nat × State :=
  if !state.ready || count = 0 then (0, state)
  else if count = 1 then pmmAllocPage state
  else match findRun state count (List.range state.highestPage) 0 0 with
    | some start => (start * pageSize, forRange 0 count (takePage start) state)
    | none => (0, state)

/-- `pmm_free_page`: unaligned, unmanaged and already free pages are ignored. -/
def pmmFreePage (state : State) (phys : Nat) : State :=
  if !state.ready || phys % pageSize ≠ 0 then state
  else if state.highestPage ≤ phys / pageSize then state
  else if bitmapTest state (phys / pageSize) then
    { bitmapClear state (phys / pageSize) with used := state.used - 1 }
  else state

def pmmFreePages (state : State) (phys count : Nat) : State :=
  forRange 0 count (fun index current => pmmFreePage current (u64 (phys + index * pageSize))) state

def pmmGetFreePages (state : State) : Nat := state.highestPage - state.used

end GWKernel.Pmm
