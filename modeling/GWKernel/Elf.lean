import GWKernel.Lib.Memory
import GWKernel.Lib.Word

/-! The ELF loader (kernel/process/elf.c). The file lies in the memory that the loader writes to,
and the state records the bytes read from the file and the bytes written. -/

namespace GWKernel.Elf
open Lib

def etExec : Nat := 2
def emX8664 : Nat := 62
def ptLoad : Nat := 1

/-- `sizeof(Elf64_Ehdr)`: the packed structure ends with `e_phnum`. -/
def sizeofEhdr : Nat := 58
def sizeofPhdr : Nat := 56

/-- A little-endian field; addresses wrap at 2^64. -/
def field (mem : Mem) (address width : Nat) : Nat := Mem.le (fun place => mem (u64 place)) address width

/-- The fields of `Elf64_Ehdr` that the loader reads. -/
structure Ehdr where
  magic : Nat
  fileClass : Nat
  type : Nat
  machine : Nat
  entry : Nat
  phoff : Nat
  phentsize : Nat
  phnum : Nat
deriving DecidableEq, Repr

def ehdrAt (mem : Mem) (data : Nat) : Ehdr where
  magic := field mem data 4
  fileClass := field mem (data + 4) 1
  type := field mem (data + 16) 2
  machine := field mem (data + 18) 2
  entry := field mem (data + 24) 8
  phoff := field mem (data + 32) 8
  phentsize := field mem (data + 54) 2
  phnum := field mem (data + 56) 2

/-- The fields of `Elf64_Phdr` that the loader reads. -/
structure Phdr where
  type : Nat
  offset : Nat
  vaddr : Nat
  filesz : Nat
  memsz : Nat
deriving DecidableEq, Repr

def phdrAt (mem : Mem) (address : Nat) : Phdr where
  type := field mem address 4
  offset := field mem (address + 8) 8
  vaddr := field mem (address + 16) 8
  filesz := field mem (address + 32) 8
  memsz := field mem (address + 40) 8

/-- 0x7F, E, L, F. -/
def elfMagic : Nat := 0x464C457F

/-- The tests of `elf_load` on the header. -/
def Ehdr.accepted (eh : Ehdr) (size : Nat) : Bool :=
  eh.magic == elfMagic && eh.fileClass == 2 && eh.type == etExec && eh.machine == emX8664 &&
    u64 (eh.phoff + eh.phnum * eh.phentsize) ≤ size

structure Machine where
  mem : Mem
  reads : List Span
  writes : List Span

abbrev Code := StateM Machine

/-- `while (n--) *dd++ = c`. -/
def memsetL (byte : UInt8) : Nat → Nat → Mem → Mem
  | 0, _, mem => mem
  | n + 1, dst, mem => memsetL byte n (dst + 1) fun other => if other = u64 dst then byte else mem other

/-- `while (n--) *dd++ = *ss++`. -/
def memcpyL : Nat → Nat → Nat → Mem → Mem
  | 0, _, _, mem => mem
  | n + 1, dst, src, mem =>
    memcpyL n (dst + 1) (src + 1) fun other => if other = u64 dst then mem (u64 src) else mem other

def readEhdr (data : Nat) : Code Ehdr := fun machine =>
  (ehdrAt machine.mem data, { machine with reads := ⟨data, sizeofEhdr⟩ :: machine.reads })

def readPhdr (address : Nat) : Code Phdr := fun machine =>
  (phdrAt machine.mem address, { machine with reads := ⟨address, sizeofPhdr⟩ :: machine.reads })

/-- The body of the second loop for one segment: zeros, then the bytes of the file. The header at
`address` is read again for the copy, since the zeros may have changed it. -/
def placeSegment (data address : Nat) (ph : Phdr) : Code Unit := do
  modify fun machine =>
    { machine with mem := memsetL 0 ph.memsz ph.vaddr machine.mem, writes := ⟨ph.vaddr, ph.memsz⟩ :: machine.writes }
  let again ← readPhdr address
  let src := u64 (data + again.offset)
  modify fun machine =>
    { mem := memcpyL again.filesz ph.vaddr src machine.mem
      reads := ⟨src, again.filesz⟩ :: machine.reads
      writes := ⟨ph.vaddr, again.filesz⟩ :: machine.writes }

/-- `&ph[i]`. -/
def phdrAddress (table index : Nat) : Nat := u64 (table + sizeofPhdr * index)

/-- The first loop, with `min_v` and `max_v`. -/
def scan (table : Nat) : List Nat → Nat → Nat → Code (Nat × Nat)
  | [], minV, maxV => pure (minV, maxV)
  | index :: rest, minV, maxV => do
    let ph ← readPhdr (phdrAddress table index)
    if ph.type ≠ ptLoad then scan table rest minV maxV
    else scan table rest (min ph.vaddr minV) (max (u64 (ph.vaddr + ph.memsz)) maxV)

/-- The second loop from `index` on (`i` is a `uint16_t`); the flag is false for -1. `e_phnum` is
read again in every round, since a segment may have overwritten it. -/
def loadSegments (data size table : Nat) : Nat → Nat → Code Bool
  | 0, _ => pure true
  | rounds + 1, index => do
    let eh ← readEhdr data
    if eh.phnum ≤ index then pure true
    else
      let ph ← readPhdr (phdrAddress table index)
      if ph.type ≠ ptLoad then loadSegments data size table rounds (index + 1)
      else if size < u64 (ph.offset + ph.filesz) then pure false
      else
        placeSegment data (phdrAddress table index) ph
        loadSegments data size table rounds (index + 1)

/-- `elf_info_t`. -/
structure Info where
  entry : Nat
  loadBase : Nat
  loadSize : Nat
deriving DecidableEq, Repr

/-- `elf_load` of the `size` bytes at `data`: what it writes to `*out`, or `none` for the
result -1. -/
def elfLoad (data size : Nat) : Code (Option Info) := do
  if data = 0 ∨ size < sizeofEhdr then pure none
  else
    let eh ← readEhdr data
    if !eh.accepted size then pure none
    else
      let table := u64 (data + eh.phoff)
      let (minV, maxV) ← scan table (List.range eh.phnum) (2 ^ 64 - 1) 0
      if minV = 2 ^ 64 - 1 then pure none
      else
        let loaded ← loadSegments data size table 65535 0
        if !loaded then pure none
        else
          let eh ← readEhdr data
          pure (some ⟨eh.entry, minV, u64 (maxV + 2 ^ 64 - minV)⟩)

end GWKernel.Elf
