import GWKernel.Lib.Memory
import GWKernel.Lib.Run

/-! The page tables (kernel/mm/vmm.c) in physical memory, and the walk that the processor makes
through them. The page allocator is a parameter. -/

namespace GWKernel.Vmm
open Lib

def pteP : UInt64 := 1
def pteW : UInt64 := 2
def pteU : UInt64 := 4
def ptePs : UInt64 := (1 : UInt64) <<< 7
def pteFlags : UInt64 := pteP ||| pteW ||| pteU

/-- `pmm_alloc_page`. -/
abbrev PageSource (π : Type) := π → UInt64 × π

structure State (π : Type) where
  mem : Mem
  pml4 : UInt64
  pmm : π

/-- Loops take a fuel argument; `none` means that the loop was still going. -/
abbrev Code (π : Type) := StateT (State π) Option

variable {π : Type}

/-- `table[index]`. -/
def load (table : UInt64) (index : Nat) : Code π UInt64 := do
  pure (word (← get).mem (table.toNat + 8 * index))

def store (table : UInt64) (index : Nat) (entry : UInt64) : Code π Unit :=
  modify fun state => { state with mem := setWord state.mem (table.toNat + 8 * index) entry }

/-- `for (int i = 0; i < 512; i++) table[i] = entries(i)`. -/
def storeAll (table : UInt64) (entries : Nat → UInt64) : Code π Unit :=
  modify fun state => { state with
    mem := forRange 0 512 (fun index mem => setWord mem (table.toNat + 8 * index) (entries index)) state.mem }

variable (allocPage : PageSource π)

def pmmAllocPage : Code π UInt64 := fun state =>
  let (page, pmm) := allocPage state.pmm
  some (page, { state with pmm := pmm })

def allocTable : Code π UInt64 := do
  let page ← pmmAllocPage allocPage
  if page = 0 then pure 0
  else do
    storeAll page fun _ => 0
    pure page

def bigPage (phys : UInt64) : UInt64 := phys ||| pteFlags ||| ptePs

/-- The loop of `vmm_init` over the regions of 1 GiB, from `g` on. -/
def initRegions (pdpt : UInt64) : Nat → Nat → Code π Bool
  | 0, _ => pure true
  | rounds + 1, g => do
    let pd ← allocTable allocPage
    if pd = 0 then pure false
    else do
      store pdpt g (pd ||| pteFlags)
      storeAll pd fun i => bigPage (UInt64.ofNat g * 0x40000000 + UInt64.ofNat i * 0x200000)
      initRegions pdpt rounds (g + 1)

def vmmInit : Code π Bool := do
  let pml4 ← allocTable allocPage
  modify fun state => { state with pml4 := pml4 }
  if pml4 = 0 then pure false
  else do
    let pdpt ← allocTable allocPage
    if pdpt = 0 then pure false
    else do
      store pml4 0 (pdpt ||| pteFlags)
      initRegions allocPage pdpt 4 0

/-- The index of an address into the table whose entries are `2^shift` bytes apart. -/
def slot (shift address : UInt64) : Nat := ((address >>> shift) &&& 0x1FF).toNat

/-- A new table for an entry that is not present. -/
def ensure (table : UInt64) (index : Nat) : Code π Bool := do
  if (← load table index) &&& pteP = 0 then do
    let made ← allocTable allocPage
    if made = 0 then pure false
    else do
      store table index (made ||| pteFlags)
      pure true
  else pure true

/-- Only the PDPT of the first 512 GiB is taken for granted. -/
def ensurePdpt (pml4 address : UInt64) : Code π Bool :=
  if slot 39 address ≠ 0 then ensure allocPage pml4 (slot 39 address) else pure true

/-- One round of the loop of `vmm_map_physical_range`. -/
def mapPage (address : UInt64) : Code π Bool := do
  let pml4 := (← get).pml4
  if ← ensurePdpt allocPage pml4 address then do
    let pdpt := (← load pml4 (slot 39 address)) &&& ~~~0xFFF
    if ← ensure allocPage pdpt (slot 30 address) then do
      let pd := (← load pdpt (slot 30 address)) &&& ~~~0xFFF
      store pd (slot 21 address) (bigPage address)
      pure true
    else pure false
  else pure false

def mapLoop (stop : UInt64) : Nat → UInt64 → Code π Bool
  | 0, _ => fun _ => none
  | fuel + 1, address =>
    if address < stop then do
      if ← mapPage allocPage address then mapLoop stop fuel (address + 0x200000) else pure false
    else pure true

def vmmMapPhysicalRange (fuel : Nat) (phys size : UInt64) : Code π Bool := do
  if (← get).pml4 = 0 ∨ size = 0 then pure false
  else mapLoop allocPage ((phys + size + 0x1FFFFF) &&& ~~~0x1FFFFF) fuel (phys &&& ~~~0x1FFFFF)

/-- Bits 47 to 63 are the same. -/
def canonical (address : UInt64) : Bool := address >>> 47 = 0 ∨ address >>> 47 = 0x1FFFF

def target (entry : UInt64) : UInt64 := entry &&& 0x000FFFFFFFFFF000

/-- The four-level walk with the tables' root in CR3. -/
def walk (mem : Mem) (cr3 address : UInt64) : Option UInt64 :=
  if canonical address then
    let pml4e := word mem ((target cr3).toNat + 8 * slot 39 address)
    if pml4e &&& pteP = 0 then none
    else
      let pdpte := word mem ((target pml4e).toNat + 8 * slot 30 address)
      if pdpte &&& pteP = 0 then none
      else if pdpte &&& ptePs ≠ 0 then some ((target pdpte &&& ~~~0x3FFFFFFF) ||| (address &&& 0x3FFFFFFF))
      else
        let pde := word mem ((target pdpte).toNat + 8 * slot 21 address)
        if pde &&& pteP = 0 then none
        else if pde &&& ptePs ≠ 0 then some ((target pde &&& ~~~0x1FFFFF) ||| (address &&& 0x1FFFFF))
        else
          let pte := word mem ((target pde).toNat + 8 * slot 12 address)
          if pte &&& pteP = 0 then none else some (target pte ||| (address &&& 0xFFF))
  else none

end GWKernel.Vmm
