import GWKernel.Pmm

/-! Loading of the kernel image (boot/bootloader.c): `loadKernelFile` from the file, `loadKernel`
from the buffer it was read to. Page allocation is the firmware's. -/

namespace GWKernel.Bootloader
open Lib Pmm

def elfMagic : Nat := 0x464C457F
def emX8664 : Nat := 0x3E
def ptLoad : Nat := 1

/-- The fields of `Elf64_Ehdr` that `load_kernel` reads. -/
structure Elf64Ehdr where
  magic : Nat
  machine : Nat
  entry : Nat
  phoff : Nat
  phnum : Nat
deriving DecidableEq, Repr

def ehdrAt (mem : Mem) (address : Nat) : Elf64Ehdr where
  magic := mem.le address 4
  machine := mem.le (address + 18) 2
  entry := mem.le (address + 24) 8
  phoff := mem.le (address + 32) 8
  phnum := mem.le (address + 56) 2

/-- The fields of `Elf64_Phdr` that `load_kernel` reads. -/
structure Elf64Phdr where
  type : Nat
  offset : Nat
  paddr : Nat
  filesz : Nat
  memsz : Nat
deriving DecidableEq, Repr

def Elf64Phdr.size : Nat := 56

def phdrAt (mem : Mem) (address : Nat) : Elf64Phdr where
  type := mem.le address 4
  offset := mem.le (address + 8) 8
  paddr := mem.le (address + 24) 8
  filesz := mem.le (address + 32) 8
  memsz := mem.le (address + 40) 8

/-- `AllocatePages` with `AllocateAddress` and with `AllocateAnyPages`. -/
structure Firmware where
  allocateAddress : (pages address : Nat) → Bool
  allocateAnyPages : (pages : Nat) → Option Nat

/-- What `load_kernel` reports to `efi_main`. -/
structure Kernel where
  entry : Nat
  base : Nat
  size : Nat
deriving DecidableEq, Repr

def extend (range : Nat × Nat) (phdr : Elf64Phdr) : Nat × Nat :=
  if phdr.type ≠ ptLoad then range
  else (min range.1 phdr.paddr, max range.2 (u64 (phdr.paddr + phdr.memsz)))

/-- The lowest load address and the highest end of the `PT_LOAD` segments. -/
def loadRange (mem : Mem) (table count : Nat) : Nat × Nat :=
  ((List.range count).map fun index => phdrAt mem (table + index * Elf64Phdr.size)).foldl extend (2 ^ 64 - 1, 0)

/-- The pages of the final image: at the linked address, or else anywhere. -/
def kernelPhys (firmware : Firmware) (pages minPaddr : Nat) : Option Nat :=
  if firmware.allocateAddress pages minPaddr then some minPaddr else firmware.allocateAnyPages pages

/-- One round of the loop that copies the segments. -/
def copySegment (buffer base minPaddr table : Nat) (index : Nat) (mem : Mem) : Mem :=
  let phdr := phdrAt mem (table + index * Elf64Phdr.size)
  if phdr.type ≠ ptLoad then mem
  else mem.copy (u64 (base + (phdr.paddr + 2 ^ 64 - minPaddr))) (mem.slice (buffer + phdr.offset) phdr.filesz)

/-- The pages `load_kernel` takes for an image of `size` bytes. -/
def imagePages (size : Nat) : Nat := u64 (size + 4095) / 4096

/-- `load_kernel`: the kernel and the memory it is loaded in, or `none` for an error. -/
def loadKernel (firmware : Firmware) (buffer : Nat) (mem : Mem) : Option (Kernel × Mem) := do
  let ehdr := ehdrAt mem buffer
  if ehdr.magic ≠ elfMagic then none
  else if ehdr.machine ≠ emX8664 then none
  else
    let table := u64 (buffer + ehdr.phoff)
    let (minPaddr, maxPaddr) := loadRange mem table ehdr.phnum
    if minPaddr = 2 ^ 64 - 1 then none
    else
      let imageSize := u64 (maxPaddr + 2 ^ 64 - minPaddr)
      let pages := imagePages imageSize
      let base ← kernelPhys firmware pages minPaddr
      let mem := mem.fill base (pages * 4096) 0
      let mem := forRange 0 ehdr.phnum (copySegment buffer base minPaddr table) mem
      some (⟨u64 (base + (ehdr.entry + 2 ^ 64 - minPaddr)), base, imageSize⟩, mem)

structure File where
  size : Nat
  bytes : Mem

def maxPages : Nat := 512

/-- `file->Read` of at most `max_pages` pages. -/
def readFile (file : File) (buffer : Nat) (mem : Mem) : Mem := fun address =>
  if buffer ≤ address ∧ address < buffer + min file.size (maxPages * 4096) then file.bytes (address - buffer)
  else mem address

/-- `load_kernel` from the allocation of the temporary buffer on; `buffer` is what
`AllocatePages` answers. -/
def loadKernelFile (firmware : Firmware) (buffer : Option Nat) (file : File) (mem : Mem) : Option (Kernel × Mem) := do
  let buffer ← buffer
  loadKernel firmware buffer (readFile file buffer mem)

end GWKernel.Bootloader
