import GWKernel.Lib.Bytes
import GWKernel.Lib.Word

/-! The single-connection TCP client (kernel/net/tcp.c). Each poll delivers at most one segment;
while a segment is being sent, the wait for an ARP reply polls as well, so `on_tcp` can be entered
again. -/

namespace GWKernel.Tcp
open Lib

inductive Phase where
  | closed
  | synSent
  | est
  | closeWait
deriving DecidableEq, Repr

/-- The static variables of tcp.c. `rxData` is the first `rx_len` bytes of the buffer, `listening`
says that `on_tcp` is registered, and `sent` lists the segments that went out. -/
structure State where
  phase : Phase
  remoteIp : List UInt8
  localPort : Nat
  remotePort : Nat
  sndNxt : Nat
  rcvNxt : Nat
  rxData : List UInt8
  gotSynack : Bool
  gotFin : Bool
  isnSeed : Nat
  nextPort : Nat
  listening : Bool
  sent : List (List UInt8)
deriving DecidableEq, Repr

/-- `sizeof(rx_data)`. -/
def rxDataSize : Nat := 8192

/-- `ip_addr` of net.c. -/
def netIpAddr : List UInt8 := [10, 0, 2, 15]

/-- `while (sum >> 16) sum = (sum & 0xFFFF) + (sum >> 16)`. -/
def foldCarry (sum : Nat) : Nat := if sum / 65536 = 0 then sum else foldCarry (sum % 65536 + sum / 65536)
termination_by sum
decreasing_by omega

def sumWords : List UInt8 → Nat
  | [] => 0
  | [last] => last.toNat * 256
  | high :: low :: rest => high.toNat * 256 + low.toNat + sumWords rest

def tcpChecksum (src dst tcp : List UInt8) : Nat :=
  65535 - foldCarry (sumWords src + sumWords dst + 6 + tcp.length + sumWords tcp)

/-- The segment that `send_segment` builds. -/
def buildSegment (tcp : State) (flags : Nat) (data : List UInt8) (ack : Nat) : List UInt8 :=
  let head := toBe16 tcp.localPort ++ toBe16 tcp.remotePort ++ toBe32 tcp.sndNxt ++ toBe32 ack ++
    [0x50, UInt8.ofNat flags, 0x40, 0x00]
  let checksum := tcpChecksum netIpAddr tcp.remoteIp (head ++ [0, 0, 0, 0] ++ data)
  head ++ toBe16 checksum ++ [0, 0] ++ data

/-- `send_segment`: `wait` is what arrives while the address is resolved, `delivered` is whether
it was. -/
def sendSegment (flags : Nat) (data : List UInt8) (ack : Nat) (wait : State → State) (delivered : Bool) (tcp : State) :
    Bool × State :=
  if 1400 < 20 + data.length then (false, tcp)
  else
    let segment := buildSegment tcp flags data ack
    let tcp := wait tcp
    if delivered then (true, { tcp with sent := tcp.sent ++ [segment] }) else (false, tcp)

/-- `send_segment(0x10, 0, 0, rcv_nxt)`. -/
def sendAck (wait : State → State) (delivered : Bool) (tcp : State) : State :=
  (sendSegment 0x10 [] tcp.rcvNxt wait delivered tcp).2

/-- A segment on its way to `on_tcp`, with what arrives during the first and the
second send that it causes. -/
inductive Arrival where
  | mk (srcIp tcp : List UInt8) (first : List Arrival) (firstDelivered : Bool) (second : List Arrival)
      (secondDelivered : Bool)

/-- The data of a segment: taken over when it is the next expected. -/
def acceptData (seq : Nat) (payload : List UInt8) (tcp : State) : State :=
  if seq = tcp.rcvNxt then
    let space := rxDataSize - tcp.rxData.length
    let copy := if payload.length < space then payload.length else space
    { tcp with
      rxData := tcp.rxData ++ payload.take copy
      rcvNxt := u32 (tcp.rcvNxt + payload.length) }
  else tcp

/-- The FIN of a segment. -/
def acceptFin (seq plen : Nat) (tcp : State) : State :=
  let tcp :=
    if seq = tcp.rcvNxt then { tcp with rcvNxt := u32 (seq + plen + 1) }
    else if plen = 0 then { tcp with rcvNxt := u32 (seq + 1) }
    else tcp
  { tcp with gotFin := true }

/-- The part of `on_tcp` for an open connection. -/
def onEstablished (seq : Nat) (payload : List UInt8) (flags : Nat) (firstAck secondAck : State → State) (tcp : State) :
    State :=
  let tcp := if 0 < payload.length then firstAck (acceptData seq payload tcp) else tcp
  if flags &&& 0x01 ≠ 0 then { secondAck (acceptFin seq payload.length tcp) with phase := .closeWait } else tcp

/-- The part of `on_tcp` for a connection being opened. -/
def onSynSent (sport seq ack flags : Nat) (firstAck : State → State) (tcp : State) : State :=
  if flags &&& 0x12 = 0x12 then
    firstAck { tcp with
      remotePort := sport
      rcvNxt := u32 (seq + 1)
      sndNxt := ack
      gotSynack := true
      phase := .est }
  else tcp

mutual

def onTcp : Arrival → State → State
  | .mk srcIp bytes first firstDelivered second secondDelivered, tcp =>
    if bytes.length < 20 then tcp
    else if srcIp ≠ tcp.remoteIp then tcp
    else if be16 bytes 2 ≠ tcp.localPort then tcp
    else
      let doff := byteAt bytes 12 / 16 * 4
      if doff < 20 ∨ bytes.length < doff then tcp
      else match tcp.phase with
        | .synSent =>
          onSynSent (be16 bytes 0) (be32 bytes 4) (be32 bytes 8) (byteAt bytes 13)
            (sendAck (fun current => netPolls first current) firstDelivered) tcp
        | .closed => tcp
        | .est | .closeWait =>
          if be16 bytes 0 ≠ tcp.remotePort then tcp
          else onEstablished (be32 bytes 4) (bytes.drop doff) (byteAt bytes 13)
            (sendAck (fun current => netPolls first current) firstDelivered)
            (sendAck (fun current => netPolls second current) secondDelivered) tcp

/-- Polls that each deliver a segment. -/
def netPolls : List Arrival → State → State
  | [], tcp => tcp
  | arrival :: rest, tcp => netPolls rest (if tcp.listening then onTcp arrival tcp else tcp)

end

/-- `net_poll`, as TCP sees it: a segment, or nothing for TCP. -/
def netPoll (poll : Option Arrival) (tcp : State) : State := netPolls poll.toList tcp

/-- `settle`: at most 30 polls. -/
def settle (count : Nat) (polls : List (Option Arrival)) (tcp : State) : State :=
  (polls.take (min count 30)).foldl (fun current poll => netPoll poll current) tcp

/-- What the network does during one send and the polls after it. -/
structure Exchange where
  wait : List Arrival
  delivered : Bool
  polls : List (Option Arrival)

def tcpClose (fin reset : Exchange) (polls : List (Option Arrival)) (tcp : State) : State :=
  let tcp :=
    if tcp.phase = .est ∨ tcp.phase = .closeWait then
      let tcp := (sendSegment 0x11 [] tcp.rcvNxt (netPolls fin.wait) fin.delivered tcp).2
      let tcp := settle 40 fin.polls { tcp with sndNxt := u32 (tcp.sndNxt + 1) }
      let tcp := (sendSegment 0x14 [] tcp.rcvNxt (netPolls reset.wait) reset.delivered tcp).2
      settle 15 reset.polls tcp
    else tcp
  settle 25 polls { tcp with phase := .closed, rxData := [], gotFin := false, gotSynack := false, listening := false }

/-- The loop of `tcp_connect` that waits for the handshake. -/
def awaitSynack : List (Option Arrival) → State → Bool × State
  | [], tcp => (false, { tcp with phase := .closed, listening := false })
  | poll :: polls, tcp =>
    let tcp := netPoll poll tcp
    if tcp.gotSynack then (true, tcp) else awaitSynack polls tcp

/-- `tcp_connect` from a closed connection; the result is true for 0. -/
def tcpConnectClosed (ip : List UInt8) (port : Nat) (polls : List (Option Arrival)) (syn : Exchange) (tcp : State) :
    Bool × State :=
  let tcp := settle 20 polls tcp
  let nextPort := (tcp.nextPort + 1) % 2 ^ 16
  let isnSeed := u32 (tcp.isnSeed * 1103515245 + 12345)
  let tcp := { tcp with
    listening := true
    remoteIp := ip
    remotePort := port
    localPort := tcp.nextPort
    nextPort := if nextPort < 42000 then 42000 else nextPort
    isnSeed
    sndNxt := isnSeed
    rcvNxt := 0
    rxData := []
    gotSynack := false
    gotFin := false
    phase := .synSent }
  let (ok, tcp) := sendSegment 0x02 [] 0 (netPolls syn.wait) syn.delivered tcp
  if ok then awaitSynack (syn.polls.take 400) { tcp with sndNxt := u32 (tcp.sndNxt + 1) }
  else (false, { tcp with phase := .closed })

def tcpConnect (ip : List UInt8) (port : Nat) (fin reset : Exchange) (closing polls : List (Option Arrival))
    (syn : Exchange) (tcp : State) : Bool × State :=
  tcpConnectClosed ip port polls syn (if tcp.phase = .closed then tcp else tcpClose fin reset closing tcp)

/-- The loop of `tcp_send`; `exchanges` has one entry for each chunk. -/
def sendChunks : List Exchange → List UInt8 → State → Bool × State
  | [], _, tcp => (true, tcp)
  | exchange :: exchanges, data, tcp =>
    if data = [] then (true, tcp)
    else
      let chunk := data.take 800
      let (ok, tcp) := sendSegment 0x18 chunk tcp.rcvNxt (netPolls exchange.wait) exchange.delivered tcp
      if ok then
        sendChunks exchanges (data.drop 800) (settle 5 exchange.polls { tcp with sndNxt := u32 (tcp.sndNxt + chunk.length) })
      else (false, tcp)

/-- `tcp_send`; the network answers chunk `i` with `network i`. -/
def tcpSend (network : Nat → Exchange) (data : List UInt8) (tcp : State) : Bool × State :=
  if tcp.phase ≠ .est then (false, tcp)
  else sendChunks ((List.range ((data.length + 799) / 800)).map network) data tcp

/-- Result of `tcp_recv`: 0 with some bytes, 0 with none, or -1. -/
inductive Received where
  | data (bytes : List UInt8)
  | endOfStream
  | timeout
deriving DecidableEq, Repr

/-- `tcp_recv` with one poll for each of its `timeout_iters` rounds. -/
def tcpRecv (maxlen : Nat) : List (Option Arrival) → State → Received × State
  | [], tcp => (.timeout, tcp)
  | poll :: polls, tcp =>
    let tcp := netPoll poll tcp
    if 0 < tcp.rxData.length then
      let count := if tcp.rxData.length < maxlen then tcp.rxData.length else maxlen
      (.data (tcp.rxData.take count), { tcp with rxData := tcp.rxData.drop count })
    else if tcp.gotFin then (.endOfStream, tcp)
    else tcpRecv maxlen polls tcp

def tcpIsConnected (tcp : State) : Bool := tcp.phase = .est ∨ tcp.phase = .closeWait

end GWKernel.Tcp
