import GWKernel.Lib.Bytes
import GWKernel.Lib.Word

/-! The one-slot UDP receiver (kernel/net/udp.c). The datagrams that come in are an input, and
`none` stands for an access outside a buffer. -/

namespace GWKernel.Udp
open Lib

/-- The static variables of udp.c. `rxBuf` is the first `rx_len` bytes of the buffer, and
`listening` says that `on_udp` is registered. -/
structure State where
  rxBuf : List UInt8
  rxSrcIp : List UInt8
  rxSrcPort : Nat
  rxDstPort : Nat
  rxHave : Bool
  listening : Bool
deriving DecidableEq, Repr

/-- `sizeof(rx_buf)`. -/
def rxBufSize : Nat := 1500

/-- A datagram on its way to `on_udp`, from an address of four bytes. -/
structure Datagram where
  srcIp : List UInt8
  udp : List UInt8
  four : srcIp.length = 4
deriving DecidableEq, Repr

def copied (len ulen : Nat) : Nat :=
  let ulen := if ulen < 8 ∨ len < ulen then len % 2 ^ 16 else ulen
  let plen := u64 (2 ^ 64 + ulen - 8)
  if rxBufSize < plen then rxBufSize else plen

def onUdp (srcIp bytes : List UInt8) (udp : State) : Option State :=
  if bytes.length < 8 then some udp
  else do
    let sport ← readBe16 bytes 0
    let dport ← readBe16 bytes 2
    let ulen ← readBe16 bytes 4
    let plen := copied bytes.length ulen
    guard (plen ≤ rxBufSize)
    let data ← readSlice bytes 8 plen
    let source ← readSlice srcIp 0 4
    pure { udp with
      rxBuf := data
      rxSrcIp := source
      rxSrcPort := sport
      rxDstPort := dport
      rxHave := true }

/-- The packet that `udp_send` builds. -/
def packet (dstPort srcPort : Nat) (data : List UInt8) : List UInt8 :=
  toBe16 srcPort ++ toBe16 dstPort ++ toBe16 (8 + data.length) ++ [0, 0] ++ data

def deliver (datagrams : List Datagram) (udp : State) : Option State :=
  datagrams.foldlM
    (fun current datagram => if current.listening then onUdp datagram.srcIp datagram.udp current else some current) udp

/-- `udp_send`: `wait` is what arrives while the address is resolved, `sent` is whether it was. -/
def udpSend (data : List UInt8) (wait : List Datagram) (sent : Bool) (udp : State) : Option (Bool × State) :=
  if 1480 < data.length + 8 then some (false, udp)
  else do
    let udp ← deliver wait udp
    pure (sent, udp)

structure Message where
  data : List UInt8
  srcIp : List UInt8
  fromPort : Nat
deriving DecidableEq, Repr

/-- The loop of `udp_recv`, with one poll for each of its `timeout_iters` rounds. -/
def awaitDatagram (localPort maxlen : Nat) : List (List Datagram) → State → Option (Option Message × State)
  | [], udp => some (none, udp)
  | poll :: polls, udp => do
    let udp ← deliver poll udp
    if udp.rxHave ∧ udp.rxDstPort = localPort then do
      let count := if udp.rxBuf.length < maxlen then udp.rxBuf.length else maxlen
      guard (count ≤ maxlen)
      let data ← readSlice udp.rxBuf 0 count
      pure (some ⟨data, udp.rxSrcIp, udp.rxSrcPort⟩, { udp with rxHave := false })
    else awaitDatagram localPort maxlen polls udp

def udpRecv (localPort maxlen : Nat) (polls : List (List Datagram)) (udp : State) : Option (Option Message × State) :=
  awaitDatagram localPort maxlen polls { udp with listening := true }

end GWKernel.Udp
