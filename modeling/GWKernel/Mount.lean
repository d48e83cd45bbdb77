import GWKernel.Ahci
import GWKernel.Ata
import GWKernel.Fat
import GWKernel.Nvme

/-! `fat_mount` with the storage backends below it (kernel/fs/fat.c, and the initialisation of
kernel/drivers/nvme.c, ahci.c and ata.c). What the PCI scan, the mapping of registers and the page
allocator answer is given, and so is what the controllers show in their registers and when they
complete a command. -/

namespace GWKernel.Mount
open Lib
open Fat (Volume)

structure Hardware where
  nvmeFound : Bool
  nvmeMapped : Bool
  /-- the readings of the controller status register, one after the other -/
  csts : Nat → Nat
  /-- the four pages of the queues; 0 stands for none -/
  queuePages : Nat
  /-- the statuses of the two admin commands, if the controller completes them in time -/
  createCq : Option Nat
  createSq : Option Nat
  bounce : Nat
  ahciFound : Bool
  ahciMapped : Bool
  ahciPage : Nat
  /-- what a command given to the AHCI controller does to its disk -/
  ahciEffect : Ahci.Command → (Nat → Mem) → Nat → Mem
  ahciReadable : Nat → Bool
  ataReadable : Nat → Bool

structure Machine where
  nvme : Nvme.State
  delays : List Nvme.Delays
  port : Ahci.State
  ahci : Nat → Mem
  ata : Ata.State
  useNvme : Bool
  useAhci : Bool
  sector : Mem

/-- `wait_rdy`, with the number of readings made. -/
def waitRdy (csts : Nat → Nat) (want : Bool) : Nat → Nat → Bool × Nat
  | 0, reads => (false, reads)
  | count + 1, reads =>
    if (csts reads % 2 == 1) = want then (true, reads + 1) else waitRdy csts want count (reads + 1)

/-- `submit` on the admin queue, which holds one command at a time: what `poll_cq` finds is the status
of that command. -/
def submitAdmin (status : Option Nat) : Nvme.Poll :=
  match status with
  | none => .timeout
  | some status => if status % 2 ^ 15 = 0 then .ok else .failed (status % 2 ^ 15)

/-- `nvme_init` gets as far as the self-test. -/
def Hardware.nvmeUp (hw : Hardware) : Bool :=
  hw.nvmeFound && hw.nvmeMapped &&
    let (disabled, reads) := waitRdy hw.csts false Nvme.spinLimit 0
    disabled && hw.queuePages != 0 && (waitRdy hw.csts true Nvme.spinLimit reads).1 &&
      submitAdmin hw.createCq == .ok && submitAdmin hw.createSq == .ok && hw.bounce != 0

/-- The timing of the next NVMe command. -/
def Machine.timing (machine : Machine) : Nvme.Delays := machine.delays.headD fun _ => []

/-- `nvme_read` into `sector`. -/
def nvmeReadSector (hw : Hardware) (lba : Nat) (machine : Machine) : Bool × Machine :=
  let (bytes, nvme) := Nvme.nvmeRead machine.timing hw.bounce lba 1 machine.nvme
  let machine := { machine with nvme := nvme, delays := machine.delays.tail }
  match bytes with
  | some bytes => (true, { machine with sector := machine.sector.copy 0 bytes })
  | none => (false, machine)

/-- `read_abs` into `sector`; ATA takes 28 bits of the sector number. -/
def readAbs (hw : Hardware) (lba : Nat) (machine : Machine) : Bool × Machine :=
  if machine.useNvme then nvmeReadSector hw lba machine
  else if machine.useAhci then
    if hw.ahciReadable lba then (true, { machine with sector := machine.ahci lba }) else (false, machine)
  else if hw.ataReadable lba then (true, { machine with sector := machine.ata.disk (lba % 2 ^ 28) }) else (false, machine)

def pattern : List UInt8 := (List.range 512).map fun index => 0x5A ^^^ UInt8.ofNat index

/-- The I/O queue pair after the reset of the controller and the two admin commands. -/
def newQueues (nvme : Nvme.State) : Nvme.State :=
  { nvme with
    present := true
    sq := fun _ _ => 0
    cq := fun _ => 0
    tail := 0
    head := 0
    phase := 1
    nextCid := 3
    pending := []
    cqTail := 0
    cqPhase := 1
    cqDoorbell := 0
    log := [] }

/-- The self-test of `nvme_init`. Its verdict is a message only. -/
def selfTest (hw : Hardware) (machine : Machine) : Machine :=
  let (written, nvme) := Nvme.nvmeWrite machine.timing hw.bounce 200 1 pattern machine.nvme
  let machine := { machine with nvme := nvme, delays := machine.delays.tail }
  if written then
    let nvme := { machine.nvme with bounce := machine.nvme.bounce.fill 0 512 0 }
    let (_, nvme) := Nvme.nvmeRead machine.timing hw.bounce 200 1 nvme
    { machine with nvme := nvme, delays := machine.delays.tail }
  else machine

def nvmeInit (hw : Hardware) (machine : Machine) : Bool × Machine :=
  if hw.nvmeUp then (true, selfTest hw { machine with nvme := newQueues machine.nvme })
  else (false, { machine with nvme := { machine.nvme with present := false } })

/-- `fat_mount` from `have_mbr` on, with the backend chosen. -/
def haveMbr (hw : Hardware) : Volume → StateM Machine (Bool × Volume) :=
  Fat.haveMbr (readAbs hw) fun machine => (machine.sector, machine)

/-- The last attempt of `fat_mount`. -/
def mountAta (hw : Hardware) (vol : Volume) (machine : Machine) : (Bool × Volume) × Machine :=
  let (ready, ata) := Ata.ataInit machine.ata
  let machine := { machine with ata := ata }
  if ready then
    let (ok, machine) := readAbs hw 0 machine
    if ok then haveMbr hw vol machine else ((false, vol), machine)
  else ((false, vol), machine)

/-- `ahci_init`, and what the commands that it gives do to the disk. -/
def ahciInit (hw : Hardware) (machine : Machine) : Bool × Machine :=
  let (ready, port) := Ahci.ahciInit hw.ahciFound hw.ahciMapped hw.ahciPage machine.port
  let given := port.issued.drop machine.port.issued.length
  (ready, { machine with
    port := port
    ahci := given.foldl (fun disk command => hw.ahciEffect command disk) machine.ahci })

def mountAhci (hw : Hardware) (vol : Volume) (machine : Machine) : (Bool × Volume) × Machine :=
  let (ready, machine) := ahciInit hw machine
  if ready then
    let (ok, machine) := readAbs hw 0 { machine with useAhci := true }
    if ok then haveMbr hw vol machine else mountAta hw vol { machine with useAhci := false }
  else mountAta hw vol machine

def fatMount (hw : Hardware) (vol : Volume) (machine : Machine) : (Bool × Volume) × Machine :=
  let vol := { vol with mounted := false }
  let (up, machine) := nvmeInit hw { machine with useAhci := false, useNvme := false }
  if up then
    let (ok, machine) := readAbs hw 0 { machine with useNvme := true }
    if ok then haveMbr hw vol machine else mountAhci hw vol { machine with useNvme := false }
  else mountAhci hw vol machine

end GWKernel.Mount
