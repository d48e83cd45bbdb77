import GWKernel.Lib.Memory
import GWKernel.Lib.Word

/-! The AHCI driver (kernel/drivers/ahci.c), with a controller that fetches a command when its bit in
PxCI is set and may show anything in its registers. Of the other registers no write is recorded. -/

namespace GWKernel.Ahci
open Lib

/-- An entry of the physical region descriptor table. -/
structure Prd where
  address : Nat
  bytes : Nat
deriving DecidableEq, Repr

/-- A register host-to-device FIS. -/
structure Fis where
  type : Nat
  isCommand : Bool
  command : Nat
  lba : Nat
  device : Nat
  count : Nat
deriving DecidableEq, Repr

/-- A command as the controller understands it. -/
structure Command where
  fisLength : Nat
  write : Bool
  fis : Fis
  prds : List Prd
deriving DecidableEq, Repr

def decodeFis (mem : Mem) (table : Nat) : Fis where
  type := mem.le table 1
  isCommand := mem.le (table + 1) 1 / 2 ^ 7 % 2 = 1
  command := mem.le (table + 2) 1
  lba := mem.le (table + 4) 3 + mem.le (table + 8) 3 * 2 ^ 24
  device := mem.le (table + 7) 1
  count := mem.le (table + 12) 2

/-- The byte count of an entry is stored less one. -/
def decodePrd (mem : Mem) (entry : Nat) : Prd := ⟨mem.le entry 8, mem.le (entry + 12) 4 % 2 ^ 22 + 1⟩

/-- The command whose header is at `header`: CFL in bits 4:0, W in bit 6, PRDTL in bits 31:16,
then the address of the table. -/
def decode (mem : Mem) (header : Nat) : Command :=
  let flags := mem.le header 4
  let table := mem.le (header + 8) 8
  { fisLength := flags % 2 ^ 5
    write := flags / 2 ^ 6 % 2 = 1
    fis := decodeFis mem table
    prds := (List.range (flags / 2 ^ 16)).map fun index => decodePrd mem (table + 0x80 + 16 * index) }

/-- The variables of the driver, memory, what the registers will show, and the commands given. -/
structure State where
  present : Bool
  clBase : Nat
  ctBase : Nat
  mem : Mem
  shows : Nat → Nat
  reads : Nat
  issued : List Command

abbrev Io := StateM State

/-- A read of a register of the port. -/
def rr : Io Nat := fun state => (state.shows state.reads % 2 ^ 32, { state with reads := state.reads + 1 })

/-- `wr(pr, PX_CI, 1)`. -/
def issue : Io Unit := modify fun state => { state with issued := state.issued ++ [decode state.mem state.clBase] }

/-- The wait for a port that is not busy, which goes on when it stays busy. -/
def waitIdle : Nat → Io Unit
  | 0 => pure ()
  | count + 1 => do
    let tfd ← rr
    if tfd &&& 0x88 = 0 then pure () else waitIdle count

/-- The command header; the shift counts are those of the source. -/
def putHeader (mem : Mem) (clBase ctBase : Nat) (write : Bool) : Mem :=
  let mem := mem.fill clBase 32 0
  let mem := mem.put clBase 4 ((5 <<< 16) ||| (if write then 1 <<< 6 else 0) ||| (1 <<< 0))
  let mem := mem.put (clBase + 4) 4 0
  let mem := mem.put (clBase + 8) 4 ctBase
  mem.put (clBase + 12) 4 (ctBase >>> 32)

/-- The bytes `ct[0]` to `ct[15]`. -/
def fisBytes (lba count : Nat) (write : Bool) : List UInt8 :=
  [0x27, 0x80, if write then 0x35 else 0x25, 0,
    UInt8.ofNat lba, UInt8.ofNat (lba >>> 8), UInt8.ofNat (lba >>> 16), 0x40,
    UInt8.ofNat (lba >>> 24), UInt8.ofNat (lba >>> 32), UInt8.ofNat (lba >>> 40), 0,
    UInt8.ofNat count, UInt8.ofNat (count >>> 8), 0, 0]

def putTable (mem : Mem) (ctBase lba count buf : Nat) (write : Bool) : Mem :=
  let mem := (mem.fill ctBase 256 0).copy ctBase (fisBytes lba count write)
  let mem := mem.put (ctBase + 0x80) 4 buf
  let mem := mem.put (ctBase + 0x84) 4 (buf >>> 32)
  let mem := mem.put (ctBase + 0x88) 4 0
  mem.put (ctBase + 0x8C) 4 ((count * 512 - 1) ||| 1 <<< 31)

/-- The wait for the command: false for a task file error. -/
def waitDone : Nat → Io Bool
  | 0 => pure true
  | count + 1 => do
    let ci ← rr
    if ci &&& 1 = 0 then pure true
    else do
      let is ← rr
      if is &&& (1 <<< 30) ≠ 0 then pure false else waitDone count

/-- The part of `ahci_rw` behind its checks. -/
def runCommand (lba count buf : Nat) (write : Bool) : Io Bool := do
  waitIdle 1000000
  modify fun state => { state with
    mem := putTable (putHeader state.mem state.clBase state.ctBase write) state.ctBase lba count buf write }
  issue
  if ← waitDone 2000000 then do
    let ci ← rr
    pure (ci &&& 1 = 0)
  else pure false

/-- `ahci_rw`: true for 0. -/
def ahciRw (lba count buf : Nat) (write : Bool) : Io Bool := do
  let state ← get
  if state.present = false ∨ count = 0 ∨ 8 < count then pure false else runCommand lba count buf write

def sataSigAta : Nat := 0x101

/-- The loops of `stop_cmd` and `start_cmd`: they wait for bits of PxCMD to go. -/
def waitClear (bits : Nat) : Nat → Io Unit
  | 0 => pure ()
  | count + 1 => do
    let cmd ← rr
    if cmd &&& bits = 0 then pure () else waitClear bits count

def stopCmd : Io Unit := do
  let _ ← rr
  waitClear ((1 <<< 14) ||| (1 <<< 15)) 100000

def startCmd : Io Unit := do
  waitClear (1 <<< 15) 100000
  let _ ← rr
  let _ ← rr

/-- The port gets the pages at `page` for its command structures; 0 stands for none. -/
def setUpPort (page : Nat) : Io Bool := do
  stopCmd
  if page = 0 then pure false
  else do
    modify fun state => { state with clBase := page, ctBase := page + 2048, mem := state.mem.fill page 4096 0 }
    startCmd
    modify fun state => { state with present := true }
    pure true

/-- The loop of `ahci_init` over the ports, with the ports implemented. -/
def probePorts (implemented page : Nat) : List Nat → Io Bool
  | [] => pure false
  | p :: rest =>
    if implemented.testBit p then do
      let ssts ← rr
      if ssts &&& 0xF = 3 ∧ ssts >>> 8 &&& 0xF = 1 then do
        let sig ← rr
        if sig = sataSigAta then setUpPort page else probePorts implemented page rest
      else probePorts implemented page rest
    else probePorts implemented page rest

/-- `ahci_init`: true for 0. What `find_ahci_bar`, the mapping of the registers and the page allocator
answer is given. -/
def ahciInit (found mapped : Bool) (page : Nat) : Io Bool := do
  modify fun state => { state with present := false }
  if found && mapped then do
    let _ ← rr
    let implemented ← rr
    probePorts implemented page (List.range 32)
  else pure false

end GWKernel.Ahci
