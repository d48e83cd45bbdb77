import GWKernel.Lib.Interleave
import GWKernel.Lib.Memory

/-! The NE2000 driver (kernel/drivers/ne2k.c), a program of port accesses, and the DP8390, which
stores frames between any two of them. The transmit path is left out. -/

namespace GWKernel.Ne2k
open Lib

def ne2kBase : Nat := 0x300
def neCmd : Nat := ne2kBase + 0x00
def nePstart : Nat := ne2kBase + 0x01
def nePstop : Nat := ne2kBase + 0x02
def neBnry : Nat := ne2kBase + 0x03
def neIsr : Nat := ne2kBase + 0x07
def neRsar0 : Nat := ne2kBase + 0x08
def neRsar1 : Nat := ne2kBase + 0x09
def neRbcr0 : Nat := ne2kBase + 0x0A
def neRbcr1 : Nat := ne2kBase + 0x0B
def neRcr : Nat := ne2kBase + 0x0C
def neTcr : Nat := ne2kBase + 0x0D
def neDcr : Nat := ne2kBase + 0x0E
def neImr : Nat := ne2kBase + 0x0F
def nePar0 : Nat := ne2kBase + 0x01
def neCurr : Nat := ne2kBase + 0x07

def pgStart : Nat := 0x46
def pgStop : Nat := 0x80

/-- The registers that the receive path depends on, the others by their port, and the memory of
the card. -/
structure Nic where
  cmd : Nat
  pstart : Nat
  pstop : Nat
  bnry : Nat
  isr : Nat
  rsar : Nat
  curr : Nat
  page0 : Nat → Nat
  page1 : Nat → Nat
  ram : Mem

namespace Nic

/-- A read of a register: bits 6 and 7 of the command register select the page. -/
def inb (nic : Nic) (port : Nat) : Nat :=
  if port = neCmd then nic.cmd
  else if ne2kBase + 0x10 ≤ port then 0
  else if nic.cmd / 64 = 0 then
    if port = neBnry then nic.bnry else if port = neIsr then nic.isr else nic.page0 port
  else if nic.cmd / 64 = 1 then
    if port = neCurr then nic.curr else nic.page1 port
  else 0

/-- A write to a register. Bits written to the interrupt status register are cleared. -/
def outb (nic : Nic) (port value : Nat) : Nic :=
  if port = neCmd then { nic with cmd := value }
  else if ne2kBase + 0x10 ≤ port then nic
  else if nic.cmd / 64 = 0 then
    if port = nePstart then { nic with pstart := value }
    else if port = nePstop then { nic with pstop := value }
    else if port = neBnry then { nic with bnry := value }
    else if port = neIsr then { nic with isr := nic.isr &&& (255 ^^^ value) }
    else if port = neRsar0 then { nic with rsar := nic.rsar / 256 * 256 + value }
    else if port = neRsar1 then { nic with rsar := value * 256 + nic.rsar % 256 }
    else { nic with page0 := fun other => if other = port then value else nic.page0 other }
  else if nic.cmd / 64 = 1 then
    if port = neCurr then { nic with curr := value }
    else { nic with page1 := fun other => if other = port then value else nic.page1 other }
  else nic

/-- The address after `address` for the remote DMA channel, which wraps at the end of
the ring. -/
def following (nic : Nic) (address : Nat) : Nat :=
  if address + 1 = nic.pstop * 256 then nic.pstart * 256 else address + 1

/-- A word from the data port. -/
def inw (nic : Nic) : Nat × Nic :=
  ((nic.ram nic.rsar).toNat + 256 * (nic.ram (nic.following nic.rsar)).toNat,
    { nic with rsar := nic.following (nic.following nic.rsar) })

/-- The number of pages for a frame and the 4 bytes in front of it. -/
def pageCount (frame : List UInt8) : Nat := (frame.length + 4 + 255) / 256

def wrap (nic : Nic) (unit place : Nat) : Nat :=
  if place < nic.pstop * unit then place else place - (nic.pstop - nic.pstart) * unit

/-- The frame does not need the page that BNRY points at. -/
def fits (nic : Nic) (frame : List UInt8) : Prop :=
  ∀ index < pageCount frame, nic.wrap 1 (nic.curr + index) ≠ nic.bnry

instance (nic : Nic) (frame : List UInt8) : Decidable (nic.fits frame) :=
  inferInstanceAs (Decidable (∀ index < pageCount frame, nic.wrap 1 (nic.curr + index) ≠ nic.bnry))

/-- The page after a frame that begins at CURR. -/
def nextPage (nic : Nic) (frame : List UInt8) : Nat := nic.wrap 1 (nic.curr + pageCount frame)

def stored (nic : Nic) (status : UInt8) (frame : List UInt8) : List UInt8 :=
  status :: UInt8.ofNat (nic.nextPage frame) :: UInt8.ofNat (frame.length + 4) :: UInt8.ofNat ((frame.length + 4) / 256) ::
    frame

/-- The memory with the bytes of a frame from page CURR on. -/
def storeBytes (nic : Nic) : Nat → List UInt8 → Mem → Mem
  | _, [], ram => ram
  | address, byte :: bytes, ram =>
    nic.storeBytes (address + 1) bytes fun other => if other = nic.wrap 256 address then byte else ram other

/-- A frame from the wire, stored at CURR. -/
def receive (nic : Nic) (status : UInt8) (frame : List UInt8) : Nic :=
  { nic with
    ram := nic.storeBytes (nic.curr * 256) (nic.stored status frame) nic.ram
    curr := nic.nextPage frame
    isr := nic.isr ||| 1 }

end Nic

def inb (port : Nat) : Prog Nic Nat := Prog.atomic fun nic => (nic.inb port, nic)
def outb (port value : Nat) : Prog Nic Unit := Prog.atomic fun nic => ((), nic.outb port (value % 256))
def inw : Prog Nic Nat := Prog.atomic Nic.inw

def page0 : Prog Nic Unit := do
  let cmd ← inb neCmd
  outb neCmd (cmd &&& 0x3F)

def page1 : Prog Nic Unit := do
  let cmd ← inb neCmd
  outb neCmd ((cmd &&& 0x3F) ||| 0x40)

def dmaDone : Prog Nic Unit := outb neCmd 0x22

/-- `count` words from the data port, as they lie in memory. -/
def readWords : Nat → Prog Nic (List UInt8)
  | 0 => pure []
  | count + 1 => do
    let word ← inw
    let rest ← readWords count
    pure (UInt8.ofNat word :: UInt8.ofNat (word / 256) :: rest)

/-- One byte to each of the ports from `port` on. -/
def outbs : Nat → List Nat → Prog Nic Unit
  | _, [] => pure ()
  | port, value :: values => do
    outb port value
    outbs (port + 1) values

/-- `ne2k_init` up to the read of the address PROM. -/
def stopCard : Prog Nic Unit := do
  let _ ← inb (ne2kBase + 0x1F)
  outb (ne2kBase + 0x1F) 0x00
  outb neCmd 0x21
  outb neDcr 0x49
  outb neRbcr0 0
  outb neRbcr1 0
  outb neRcr 0x20
  outb neTcr 0x02
  outb nePstart pgStart
  outb nePstop pgStop
  outb neBnry pgStart
  outb neIsr 0xFF
  outb neRsar0 0
  outb neRsar1 0
  outb neRbcr0 32
  outb neRbcr1 0
  outb neCmd 0x0A

/-- The end of `ne2k_init`: station address, CURR and multicast filter in page 1, then online. -/
def startCard (mac : List UInt8) : Prog Nic Unit := do
  page1
  outbs nePar0 (mac.map UInt8.toNat)
  outb neCurr (pgStart + 1)
  outbs (ne2kBase + 0x08) (List.replicate 8 0xFF)
  page0
  outb neIsr 0xFF
  outb neImr 0x00
  outb neRcr 0x04
  outb neTcr 0x00
  outb neCmd 0x22

/-- The even bytes of the PROM. -/
def stationAddress (prom : List UInt8) : List UInt8 := (List.range 6).map fun index => prom.getD (index * 2) 0

/-- `ne2k_init`: the station address, or `none` for the result -1. -/
def ne2kInit : Prog Nic (Option (List UInt8)) := do
  stopCard
  let prom ← readWords 16
  dmaDone
  let mac := stationAddress prom
  if mac.all (· == 0) then pure none
  else
    startCard mac
    pure (some mac)

def pageBefore (page : Nat) : Nat := if page = pgStart then pgStop - 1 else (page + 255) % 256

def ringRecover : Prog Nic Unit := do
  page1
  let curr ← inb neCurr
  page0
  outb neBnry (pageBefore curr)
  outb neIsr 0xFF
  dmaDone

/-- Set up a remote read of `count` bytes from an offset in a page. -/
def startRead (count offset page : Nat) : Prog Nic Unit := do
  outb neRbcr0 (count % 256)
  outb neRbcr1 (count / 256)
  outb neRsar0 offset
  outb neRsar1 page
  outb neCmd 0x0A

/-- The two words in front of the frame that begins at a page. -/
def readHeader (page : Nat) : Prog Nic (Nat × Nat) := do
  startRead 4 0 page
  let h0 ← inw
  let h1 ← inw
  dmaDone
  pure (h0, h1)

/-- The end of `ne2k_poll`: the bytes of the frame, and BNRY behind it. -/
def readFrame (page payload nextPg : Nat) : Prog Nic (List UInt8) := do
  startRead payload 4 page
  let out ← readWords ((payload + 1) / 2)
  dmaDone
  outb neBnry (pageBefore nextPg)
  outb neIsr 0x01
  pure out

/-- `ne2k_poll` from the header of the frame at `next` on. -/
def takeFrame (maxlen next : Nat) : Prog Nic (Int × List UInt8) := do
  let (h0, count) ← readHeader next
  let status := h0 % 256
  let nextPg := h0 / 256
  if status % 2 = 0 ∨ count < 60 ∨ 1518 < count ∨ nextPg < pgStart ∨ pgStop < nextPg then
    ringRecover
    pure (-1, [])
  else if count ≤ 4 then
    ringRecover
    pure (-1, [])
  else
    let payload := min (count - 4) maxlen
    let out ← readFrame next payload nextPg
    pure (payload, out)

/-- `ne2k_poll`: the result and what it has written to the buffer. -/
def ne2kPoll (present : Bool) (maxlen : Nat) : Prog Nic (Int × List UInt8) := do
  if !present then pure (0, [])
  else
    page0
    let bnry ← inb neBnry
    page1
    let curr ← inb neCurr
    page0
    let bnry := if bnry < pgStart ∨ pgStop ≤ bnry then pgStart else bnry
    if curr < pgStart ∨ pgStop ≤ curr then
      ringRecover
      pure (0, [])
    else
      let next := (bnry + 1) % 256
      let next := if pgStop ≤ next then pgStart else next
      if next = curr then pure (0, []) else takeFrame maxlen next

end GWKernel.Ne2k
