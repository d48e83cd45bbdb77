import GWKernel.Lib.Memory
import GWKernel.Lib.Word

/-! The ATA driver (kernel/drivers/ata.c) and the drive, which may show any status at any time.
Flushing is left out, and so are
the words of an identification. -/

namespace GWKernel.Ata
open Lib

def ataSrBsy : Nat := 0x80
def ataSrDrq : Nat := 0x08
def ataSrErr : Nat := 0x01
def ataSrDf : Nat := 0x20

def ataCmdReadPio : Nat := 0x20
def ataCmdWritePio : Nat := 0x30
def ataCmdIdentify : Nat := 0xEC

/-- How often a status is polled before the driver gives up. -/
def pollLimit : Nat := 5000000

structure TaskFile where
  drive : Nat
  seccount : Nat
  lbaLo : Nat
  lbaMid : Nat
  lbaHi : Nat
deriving DecidableEq, Repr

/-- The sector that the registers name, in LBA mode, on the first drive, for a single sector. -/
def TaskFile.sector (regs : TaskFile) : Option Nat :=
  if regs.drive / 2 ^ 6 % 2 = 1 ∧ regs.drive / 2 ^ 4 % 2 = 0 ∧ regs.seccount = 1 then
    some (regs.lbaLo + regs.lbaMid * 2 ^ 8 + regs.lbaHi * 2 ^ 16 + regs.drive % 2 ^ 4 * 2 ^ 24)
  else none

/-- The variable `ata_present` and the drive: its registers, the command in execution with the
words moved, the statuses to come, its sectors, and the transfers so far. -/
structure State where
  present : Bool
  regs : TaskFile
  command : Nat
  sector : Option Nat
  moved : Nat
  status : Nat → Nat
  polls : Nat
  disk : Nat → Mem
  transfers : List (Nat × Option Nat)

abbrev Io := StateM State

/-- A read of the status or the alternate status port. -/
def inbStatus : Io Nat := fun state => (state.status state.polls % 256, { state with polls := state.polls + 1 })

def outbDrive (value : Nat) : Io Unit := modify fun state => { state with regs := { state.regs with drive := value % 256 } }
def outbSeccount (value : Nat) : Io Unit :=
  modify fun state => { state with regs := { state.regs with seccount := value % 256 } }
def outbLbaLo (value : Nat) : Io Unit := modify fun state => { state with regs := { state.regs with lbaLo := value % 256 } }
def outbLbaMid (value : Nat) : Io Unit := modify fun state => { state with regs := { state.regs with lbaMid := value % 256 } }
def outbLbaHi (value : Nat) : Io Unit := modify fun state => { state with regs := { state.regs with lbaHi := value % 256 } }

def outbCmd (command : Nat) : Io Unit :=
  modify fun state => { state with command := command, sector := state.regs.sector, moved := 0 }

/-- The drive after a word has passed the data port: with the last one the sector has been
transferred. -/
def State.pass (state : State) : State :=
  { state with
    moved := state.moved + 1
    transfers := if state.moved + 1 = 256 then state.transfers ++ [(state.command, state.sector)] else state.transfers }

def inw : Io Nat := fun state =>
  ((state.sector.elim 0 fun sector => (state.disk sector).le (2 * state.moved) 2), state.pass)

def outw (word : Nat) : Io Unit := modify fun state =>
  { state.pass with
    disk := fun other => if state.sector = some other then (state.disk other).put (2 * state.moved) 2 word else state.disk other }

def ioWait : Io Unit := do
  let _ ← inbStatus
  let _ ← inbStatus
  let _ ← inbStatus
  let _ ← inbStatus

/-- The loop of `wait_bsy_clear`: true for 0. -/
def pollBsy : Nat → Io Bool
  | 0 => pure false
  | count + 1 => do
    let s ← inbStatus
    if s &&& ataSrBsy = 0 then pure true else pollBsy count

def waitBsyClear : Io Bool := pollBsy pollLimit

/-- The loop of `wait_drq`. -/
def pollDrq : Nat → Io Bool
  | 0 => pure false
  | count + 1 => do
    let s ← inbStatus
    if s &&& (ataSrErr ||| ataSrDf) ≠ 0 then pure false
    else if s &&& ataSrDrq ≠ 0 then pure true
    else pollDrq count

def waitDrq : Io Bool := pollDrq pollLimit

def setupLba (lba : Nat) : Io Unit := do
  outbDrive (0xE0 ||| (lba >>> 24 &&& 0x0F))
  outbSeccount 1
  outbLbaLo lba
  outbLbaMid (lba >>> 8)
  outbLbaHi (lba >>> 16)

/-- The part of a round that both directions share: true when the drive asks for the words. -/
def request (lba command : Nat) : Io Bool := do
  if ← waitBsyClear then do
    setupLba lba
    outbCmd command
    ioWait
    waitDrq
  else pure false

def readWords : Nat → Io (List Nat)
  | 0 => pure []
  | count + 1 => do
    let word ← inw
    let rest ← readWords count
    pure (word :: rest)

/-- `ata_init`: true for 0. -/
def ataInit : Io Bool := do
  outbDrive 0xE0
  ioWait
  outbSeccount 0
  outbLbaLo 0
  outbLbaMid 0
  outbLbaHi 0
  outbCmd ataCmdIdentify
  ioWait
  if (← inbStatus) = 0 then pure false
  else if (← inbStatus) = 0xFF then pure false
  else if ← waitBsyClear then do
    if ← waitDrq then do
      let _ ← readWords 256
      modify fun state => { state with present := true }
      pure true
    else pure false
  else pure false

def readSectors (lba : Nat) : List Nat → Io (Option (List Nat))
  | [] => pure (some [])
  | n :: rest => do
    if ← request (u32 (lba + n)) ataCmdReadPio then do
      let words ← readWords 256
      match ← readSectors lba rest with
      | none => pure none
      | some more => pure (some (words ++ more))
    else pure none

/-- `ata_read_sectors`: the words put into the buffer, nothing for -1. -/
def ataReadSectors (lba count : Nat) : Io (Option (List Nat)) := do
  let state ← get
  if !state.present || count = 0 then pure none else readSectors lba (List.range count)

def writeWords : List Nat → Io Unit
  | [] => pure ()
  | word :: rest => do
    outw word
    writeWords rest

/-- The end of a round of `ata_write_sectors`: a drive that stays busy is not an error. -/
def settle : Io Bool := do
  let _ ← waitBsyClear
  let s ← inbStatus
  pure (s &&& (ataSrErr ||| ataSrDf) = 0)

def writeSectors (lba : Nat) (buf : Nat → Nat) : List Nat → Io Bool
  | [] => pure true
  | n :: rest => do
    if ← request (u32 (lba + n)) ataCmdWritePio then do
      writeWords ((List.range' (256 * n) 256).map buf)
      if ← settle then writeSectors lba buf rest else pure false
    else pure false

/-- `ata_write_sectors`: true for 0. -/
def ataWriteSectors (lba count : Nat) (buf : Nat → Nat) : Io Bool := do
  let state ← get
  if !state.present || count = 0 then pure false else writeSectors lba buf (List.range count)

end GWKernel.Ata
