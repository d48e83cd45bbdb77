import GWKernel.Tcp
import GWKernel.Udp

/-! The network stack between the NE2000 and the protocols (kernel/net/net.c). A pointer into a
frame is the list of bytes it may be used for, and `none` stands for an access outside. A send
polls while it waits for an ARP reply, so it takes the poll as an argument; `netPoll` ties the
knot, with fuel for the depth. -/

namespace GWKernel.Net
open Lib

/-- The static variables of net.c and of the protocols over it. `incoming` is what each poll will
find, `sent` the frames handed to the card. -/
structure Stack where
  mac : List UInt8
  gwMac : List UInt8
  gwMacValid : Bool
  netUp : Bool
  arpIp : List UInt8
  arpMac : List UInt8
  arpHave : Bool
  ipId : Nat
  tcp : Tcp.State
  udp : Udp.State
  txid : Nat
  incoming : List (List UInt8)
  sent : List (List UInt8)
deriving DecidableEq, Repr

abbrev Code (α : Type) := StateT Stack Option α

/-- An access, or a call, that fails outside a buffer. -/
def access {α : Type} (value : Option α) : Code α := fun stack => value.map fun found => (found, stack)

/-- A write of `count` bytes to a buffer of `size` bytes. -/
def fits (count size : Nat) : Code Unit := access (guard (count ≤ size))

def ipGw : List UInt8 := [10, 0, 2, 2]

def broadcast : List UInt8 := [0xFF, 0xFF, 0xFF, 0xFF, 0xFF, 0xFF]

/-- `sizeof(rxbuf)` and `sizeof(txbuf)`. -/
def frameSize : Nat := 2048

/-- `sizeof(ippkt)`. -/
def ippktSize : Nat := 1500

/-- The loop of `ip_checksum`, on a 32-bit accumulator. -/
def addWords : Nat → List UInt8 → Nat
  | sum, [] => sum
  | sum, [last] => u32 (sum + last.toNat * 256)
  | sum, high :: low :: rest => addWords (u32 (sum + (high.toNat * 256 + low.toNat))) rest

def ipChecksum (bytes : List UInt8) : Nat := 65535 - Tcp.foldCarry (addWords 0 bytes)

/-- The frame of `eth_send`, padded with zeros to 60 bytes. -/
def ethFrame (dst mac : List UInt8) (ethertype : Nat) (payload : List UInt8) : List UInt8 :=
  let frame := dst ++ mac ++ toBe16 ethertype ++ payload
  frame ++ List.replicate (60 - frame.length) 0

def ethSend (dst : List UInt8) (ethertype : Nat) (payload : List UInt8) : Code Unit := do
  fits (14 + payload.length) frameSize
  modify fun stack => { stack with sent := stack.sent ++ [ethFrame dst stack.mac ethertype payload] }

/-- `arp_xmit`; a request has no target address. -/
def arpXmit (tip : List UInt8) (tmac : Option (List UInt8)) : Code Unit := do
  let stack ← get
  let op : UInt8 := if tmac.isNone then 1 else 2
  let pkt := [0, 1, 8, 0, 6, 4, 0, op] ++ stack.mac ++ Tcp.netIpAddr ++ tmac.getD [0, 0, 0, 0, 0, 0] ++ tip
  ethSend (tmac.getD broadcast) 0x0806 pkt

def handleArp (pkt : List UInt8) : Code Unit := do
  if pkt.length < 28 then pure ()
  else do
    let op ← access (readBe16 pkt 6)
    let sha ← access (readSlice pkt 8 6)
    let spa ← access (readSlice pkt 14 4)
    let tpa ← access (readSlice pkt 24 4)
    if op = 1 then
      if tpa = Tcp.netIpAddr then arpXmit spa (some sha) else pure ()
    else if op = 2 then
      modify fun stack =>
        let stack := { stack with arpIp := spa, arpMac := sha, arpHave := true }
        if spa = ipGw then { stack with gwMac := sha, gwMacValid := true } else stack
    else pure ()

/-- The IPv4 header with a given checksum field. -/
def headerWith (checksum total id proto : Nat) (dst : List UInt8) : List UInt8 :=
  [0x45, 0] ++ toBe16 total ++ toBe16 id ++ [0, 0, 64, UInt8.ofNat proto] ++ toBe16 checksum ++ Tcp.netIpAddr ++ dst

/-- The header that `net_ipv4_send` and the echo reply build. -/
def ipHeader (total id proto : Nat) (dst : List UInt8) : List UInt8 :=
  headerWith (ipChecksum (headerWith 0 total id proto dst)) total id proto dst

/-- The ICMP message with a given checksum field. -/
def echoWith (checksum : Nat) (payload : List UInt8) : List UInt8 :=
  ((payload.set 0 0).set 2 (UInt8.ofNat (checksum / 256))).set 3 (UInt8.ofNat checksum)

def echoMessage (payload : List UInt8) : List UInt8 := echoWith (ipChecksum (echoWith 0 payload)) payload

/-- The echo reply of `handle_ip`. -/
def echoReply (frame src payload : List UInt8) : Code Unit := do
  let total := 20 + payload.length
  if ippktSize < total then pure ()
  else do
    fits total ippktSize
    let dst ← access (readSlice frame 6 6)
    ethSend dst 0x0800 (ipHeader total 0 1 src ++ echoMessage payload)

/-- The rounds of `net_ipv4_send` that wait for an ARP reply. -/
def awaitArp (poll : Code Unit) (dst : List UInt8) : Nat → Code (Option (List UInt8))
  | 0 => pure none
  | rounds + 1 => do
    poll
    let stack ← get
    if stack.arpHave ∧ stack.arpIp = dst then pure (some stack.arpMac) else awaitArp poll dst rounds

/-- The end of `net_ipv4_send`, once the hardware address is known. -/
def transmit (mac dst : List UInt8) (proto : Nat) (payload : List UInt8) : Code Bool := do
  let total := 20 + payload.length
  if ippktSize < total then pure false
  else do
    fits total ippktSize
    modify fun stack => { stack with ipId := (stack.ipId + 1) % 2 ^ 16 }
    let stack ← get
    ethSend mac 0x0800 (ipHeader total stack.ipId proto dst ++ payload)
    pure true

/-- The way of `net_ipv4_send` when the ARP entry is for another host. -/
def resolveAndSend (poll : Code Unit) (dst : List UInt8) (proto : Nat) (payload : List UInt8) : Code Bool := do
  arpXmit dst none
  match ← awaitArp poll dst 30 with
  | some mac => transmit mac dst proto payload
  | none => do
    let stack ← get
    if stack.gwMacValid then transmit stack.gwMac dst proto payload else pure false

/-- `net_ipv4_send`; the result is true for 0. -/
def netIpv4Send (poll : Code Unit) (dst : List UInt8) (proto : Nat) (payload : List UInt8) : Code Bool := do
  let stack ← get
  if stack.netUp = false then pure false
  else if stack.arpHave ∧ stack.arpIp = dst then transmit stack.arpMac dst proto payload
  else resolveAndSend poll dst proto payload

def udpSend (poll : Code Unit) (dst : List UInt8) (dstPort srcPort : Nat) (data : List UInt8) : Code Bool :=
  if 1480 < data.length + 8 then pure false else netIpv4Send poll dst 17 (Udp.packet dstPort srcPort data)

def sendSegment (poll : Code Unit) (flags : Nat) (data : List UInt8) (ack : Nat) : Code Bool :=
  if 1400 < 20 + data.length then pure false
  else do
    let stack ← get
    let segment := Tcp.buildSegment stack.tcp flags data ack
    let delivered ← netIpv4Send poll stack.tcp.remoteIp 6 segment
    if delivered then do
      modify fun stack => { stack with tcp := { stack.tcp with sent := stack.tcp.sent ++ [segment] } }
      pure true
    else pure false

def changeTcp (change : Tcp.State → Tcp.State) : Code Unit :=
  modify fun stack => { stack with tcp := change stack.tcp }

/-- `send_segment(0x10, 0, 0, rcv_nxt)`. -/
def sendAck (poll : Code Unit) : Code Unit := do
  let stack ← get
  let _ ← sendSegment poll 0x10 [] stack.tcp.rcvNxt
  pure ()

/-- The data of a segment: the copy to `rx_data`, and the number it is acknowledged with. -/
def acceptData (seq doff : Nat) (bytes : List UInt8) : Code Unit := do
  let stack ← get
  if seq = stack.tcp.rcvNxt then do
    let plen := bytes.length - doff
    let space := u64 (2 ^ 64 + Tcp.rxDataSize - stack.tcp.rxData.length)
    let copy := if plen < space then plen else space
    let data ← access (readSlice bytes doff copy)
    fits (stack.tcp.rxData.length + copy) Tcp.rxDataSize
    changeTcp fun tcp => { tcp with rxData := tcp.rxData ++ data, rcvNxt := u32 (tcp.rcvNxt + plen) }
  else pure ()

def handleFin (poll : Code Unit) (seq plen : Nat) : Code Unit := do
  changeTcp (Tcp.acceptFin seq plen)
  sendAck poll
  changeTcp fun tcp => { tcp with phase := .closeWait }

/-- The part of `on_tcp` for an open connection. -/
def onEstablished (poll : Code Unit) (seq doff flags : Nat) (bytes : List UInt8) : Code Unit := do
  let fin : Code Unit := if flags &&& 0x01 ≠ 0 then handleFin poll seq (bytes.length - doff) else pure ()
  if 0 < bytes.length - doff then do
    acceptData seq doff bytes
    sendAck poll
    fin
  else fin

/-- The part of `on_tcp` for a connection being opened. -/
def onSynSent (poll : Code Unit) (sport seq ack flags : Nat) : Code Unit :=
  if flags &&& 0x12 = 0x12 then do
    changeTcp fun tcp =>
      { tcp with remotePort := sport, rcvNxt := u32 (seq + 1), sndNxt := ack, gotSynack := true, phase := .est }
    sendAck poll
  else pure ()

def onTcp (poll : Code Unit) (src bytes : List UInt8) : Code Unit := do
  let stack ← get
  if bytes.length < 20 then pure ()
  else if src ≠ stack.tcp.remoteIp then pure ()
  else do
    let sport ← access (readBe16 bytes 0)
    let dport ← access (readBe16 bytes 2)
    if dport ≠ stack.tcp.localPort then pure ()
    else do
      let seq ← access (readBe32 bytes 4)
      let ack ← access (readBe32 bytes 8)
      let offset ← access (readByte bytes 12)
      let flags ← access (readByte bytes 13)
      let doff := offset / 16 * 4
      if doff < 20 ∨ bytes.length < doff then pure ()
      else match stack.tcp.phase with
        | .synSent => onSynSent poll sport seq ack flags
        | .closed => pure ()
        | .est | .closeWait => if sport ≠ stack.tcp.remotePort then pure () else onEstablished poll seq doff flags bytes

/-- `on_udp` as the receiver that net.c calls. -/
def onUdp (src bytes : List UInt8) : Code Unit := do
  let stack ← get
  let udp ← access (Udp.onUdp src bytes stack.udp)
  modify fun stack => { stack with udp }

/-- The end of `handle_ip`: the payload of `tot - ihl` bytes goes to its protocol. -/
def dispatch (poll : Code Unit) (frame : List UInt8) (ihl tot : Nat) : Code Unit := do
  let stack ← get
  let proto ← access (readByte frame 23)
  let src ← access (readSlice frame 26 4)
  let payload ← access (readSlice frame (14 + ihl) (tot - ihl))
  if proto = 1 then
    if 8 ≤ payload.length then do
      let type ← access (readByte payload 0)
      if type = 8 then echoReply frame src payload else pure ()
    else pure ()
  else if proto = 6 then
    if stack.tcp.listening then onTcp poll src payload else pure ()
  else if proto = 17 then
    if stack.udp.listening then onUdp src payload else pure ()
  else pure ()

def handleIp (poll : Code Unit) (frame : List UInt8) : Code Unit := do
  if frame.length < 34 then pure ()
  else do
    let first ← access (readByte frame 14)
    let ihl := first % 16 * 4
    if first / 16 ≠ 4 then pure ()
    else if ihl < 20 ∨ frame.length < 14 + ihl then pure ()
    else do
      let tot ← access (readBe16 frame 16)
      let avail := frame.length - 14
      if tot < ihl then pure ()
      else if avail < tot then
        -- truncated: what there is, in 16 bits
        let tot := avail % 2 ^ 16
        if tot < ihl then pure () else dispatch poll frame ihl tot
      else dispatch poll frame ihl tot

/-- `ne2k_poll(rxbuf, sizeof(rxbuf))`: a frame, or nothing. -/
def ne2kPoll : Code (List UInt8) := do
  let stack ← get
  modify fun stack => { stack with incoming := stack.incoming.tail }
  pure ((stack.incoming.headD []).take frameSize)

def netPoll : Nat → Code Unit
  | 0 => fun _ => none
  | fuel + 1 => do
    let frame ← ne2kPoll
    if frame.length < 14 then pure ()
    else do
      let type ← access (readBe16 frame 12)
      if type = 0x0806 then handleArp (frame.drop 14)
      else if type = 0x0800 then handleIp (netPoll fuel) frame
      else pure ()

/-- The message of `net_ping` with a given checksum field. -/
def pingWith (checksum : Nat) : List UInt8 := [8, 0] ++ toBe16 checksum ++ [0x12, 0x34, 0, 1]

def pingMessage : List UInt8 := pingWith (ipChecksum (pingWith 0))

def polls (poll : Code Unit) : Nat → Code Unit
  | 0 => pure ()
  | rounds + 1 => do
    poll
    polls poll rounds

def netPing (poll : Code Unit) (dst : List UInt8) : Code Bool := do
  let delivered ← netIpv4Send poll dst 1 pingMessage
  if delivered then do
    polls poll 40
    pure true
  else pure false

/-- The rounds of `net_init` that wait for the gateway. -/
def awaitGateway (poll : Code Unit) : Nat → Code Unit
  | 0 => pure ()
  | rounds + 1 => do
    poll
    let stack ← get
    if stack.gwMacValid then pure () else awaitGateway poll rounds

/-- `net_init`, given the address of the card if there is one. -/
def netInit (poll : Code Unit) (card : Option (List UInt8)) : Code Bool := do
  modify fun stack => { stack with
    netUp := false
    gwMacValid := false
    arpHave := false
    tcp := { stack.tcp with listening := false }
    udp := { stack.udp with listening := false } }
  match card with
  | none => pure false
  | some mac => do
    modify fun stack => { stack with netUp := true, mac }
    arpXmit ipGw none
    awaitGateway poll 30
    pure true

end GWKernel.Net
