import GWKernel.Net
import GWKernel.Dns

/-! The calls that programs make to the network (kernel/net/tcp.c, udp.c and
dns.c) over the stack of `Net`, and the runs of the stack under them. -/

namespace GWKernel.Net
open Lib

variable (poll : Code Unit)

def settle (count : Nat) : Code Unit := polls poll (min count 30)

/-- `tcp_close` of an open connection, up to the change of the state. -/
def sendClose : Code Unit := do
  let stack ← get
  let _ ← sendSegment poll 0x11 [] stack.tcp.rcvNxt
  changeTcp fun tcp => { tcp with sndNxt := u32 (tcp.sndNxt + 1) }
  settle poll 40
  let stack ← get
  let _ ← sendSegment poll 0x14 [] stack.tcp.rcvNxt
  settle poll 15

/-- The end of `tcp_close`. -/
def dropConnection : Code Unit := do
  changeTcp fun tcp => { tcp with phase := .closed, rxData := [], gotFin := false, gotSynack := false, listening := false }
  settle poll 25

def tcpClose : Code Unit := do
  let stack ← get
  if stack.tcp.phase = .est ∨ stack.tcp.phase = .closeWait then do
    sendClose poll
    dropConnection poll
  else dropConnection poll

/-- What `tcp_connect` sets before it sends the SYN. -/
def openConnection (ip : List UInt8) (port : Nat) (tcp : Tcp.State) : Tcp.State :=
  let nextPort := (tcp.nextPort + 1) % 2 ^ 16
  let isnSeed := u32 (tcp.isnSeed * 1103515245 + 12345)
  { tcp with
    listening := true
    remoteIp := ip
    remotePort := port
    localPort := tcp.nextPort
    nextPort := if nextPort < 42000 then 42000 else nextPort
    isnSeed
    sndNxt := isnSeed
    rcvNxt := 0
    rxData := []
    gotSynack := false
    gotFin := false
    phase := .synSent }

/-- The loop of `tcp_connect` that waits for the handshake. -/
def awaitSynack : Nat → Code Bool
  | 0 => do
    changeTcp fun tcp => { tcp with phase := .closed, listening := false }
    pure false
  | rounds + 1 => do
    poll
    let stack ← get
    if stack.tcp.gotSynack then pure true else awaitSynack rounds

/-- `tcp_connect` from a closed connection. -/
def tcpConnectClosed (ip : List UInt8) (port : Nat) : Code Bool := do
  settle poll 20
  changeTcp (openConnection ip port)
  let sent ← sendSegment poll 0x02 [] 0
  if sent then do
    changeTcp fun tcp => { tcp with sndNxt := u32 (tcp.sndNxt + 1) }
    awaitSynack poll 400
  else do
    changeTcp fun tcp => { tcp with phase := .closed }
    pure false

/-- `tcp_connect`; the result is true for 0. -/
def tcpConnect (ip : List UInt8) (port : Nat) : Code Bool := do
  let stack ← get
  if stack.tcp.phase = .closed then tcpConnectClosed poll ip port
  else do
    tcpClose poll
    tcpConnectClosed poll ip port

/-- The loop of `tcp_send`, with the number of chunks. -/
def sendChunks : Nat → List UInt8 → Code Bool
  | 0, _ => pure true
  | chunks + 1, data => do
    let stack ← get
    let sent ← sendSegment poll 0x18 (data.take 800) stack.tcp.rcvNxt
    if sent then do
      changeTcp fun tcp => { tcp with sndNxt := u32 (tcp.sndNxt + (data.take 800).length) }
      settle poll 5
      sendChunks chunks (data.drop 800)
    else pure false

def tcpSend (data : List UInt8) : Code Bool := do
  let stack ← get
  if stack.tcp.phase ≠ .est then pure false else sendChunks poll ((data.length + 799) / 800) data

/-- `tcp_recv`, with `timeout_iters` rounds. -/
def tcpRecv (maxlen : Nat) : Nat → Code Tcp.Received
  | 0 => pure .timeout
  | rounds + 1 => do
    poll
    let stack ← get
    if 0 < stack.tcp.rxData.length then do
      let count := min stack.tcp.rxData.length maxlen
      changeTcp fun tcp => { tcp with rxData := tcp.rxData.drop count }
      pure (.data (stack.tcp.rxData.take count))
    else if stack.tcp.gotFin then pure .endOfStream
    else tcpRecv maxlen rounds

/-- The loop of `udp_recv`, with `timeout_iters` rounds. -/
def awaitDatagram (localPort maxlen : Nat) : Nat → Code (Option Udp.Message)
  | 0 => pure none
  | rounds + 1 => do
    poll
    let stack ← get
    if stack.udp.rxHave ∧ stack.udp.rxDstPort = localPort then do
      let count := if stack.udp.rxBuf.length < maxlen then stack.udp.rxBuf.length else maxlen
      fits count maxlen
      let data ← access (readSlice stack.udp.rxBuf 0 count)
      modify fun stack => { stack with udp := { stack.udp with rxHave := false } }
      pure (some ⟨data, stack.udp.rxSrcIp, stack.udp.rxSrcPort⟩)
    else awaitDatagram localPort maxlen rounds

def udpRecv (localPort maxlen rounds : Nat) : Code (Option Udp.Message) := do
  modify fun stack => { stack with udp := { stack.udp with listening := true } }
  awaitDatagram poll localPort maxlen rounds

/-- The part of `dns_resolve` after the query is sent. -/
def receiveAnswer (localPort : Nat) : Code (Option (List UInt8)) := do
  match ← udpRecv poll localPort Dns.messageSize 40 with
  | none => pure none
  | some message => access (Dns.parseAnswer message.data)

/-- The part of `dns_resolve` that goes to the network. -/
def askServer (txid : Nat) (query : List UInt8) : Code (Option (List UInt8)) := do
  let localPort := 53000 + (txid &&& 0xFF)
  let sent ← udpSend poll [10, 0, 2, 3] 53 localPort query
  if sent then receiveAnswer poll localPort else pure none

def dnsResolve (name : List UInt8) : Code (Option (List UInt8)) :=
  match Dns.parseIp name with
  | some address => pure (some address)
  | none => do
    modify fun stack => { stack with txid := (stack.txid + 1) % 2 ^ 16 }
    let stack ← get
    match ← access (Dns.query stack.txid name) with
    | none => pure none
    | some query => askServer poll stack.txid query

/-- An address of `size` bytes. -/
abbrev Address (size : Nat) := { bytes : List UInt8 // bytes.length = size }

inductive Call where
  | netInit (card : Option (Address 6))
  | netPoll
  | netPing (dst : Address 4)
  | tcpConnect (ip : Address 4) (port : Nat)
  | tcpSend (data : List UInt8)
  | tcpRecv (maxlen rounds : Nat)
  | tcpClose
  | udpSend (dst : Address 4) (dstPort srcPort : Nat) (data : List UInt8)
  | udpRecv (localPort maxlen rounds : Nat)
  | dnsResolve (name : List UInt8)

def ignore {α : Type} (code : Code α) : Code Unit := do
  let _ ← code
  pure ()

def Call.code : Call → Code Unit
  | .netInit card => ignore (Net.netInit poll (card.map Subtype.val))
  | .netPoll => poll
  | .netPing dst => ignore (Net.netPing poll dst)
  | .tcpConnect ip port => ignore (Net.tcpConnect poll ip port)
  | .tcpSend data => ignore (Net.tcpSend poll data)
  | .tcpRecv maxlen rounds => ignore (Net.tcpRecv poll maxlen rounds)
  | .tcpClose => Net.tcpClose poll
  | .udpSend dst dstPort srcPort data => ignore (Net.udpSend poll dst dstPort srcPort data)
  | .udpRecv localPort maxlen rounds => ignore (Net.udpRecv poll localPort maxlen rounds)
  | .dnsResolve name => ignore (Net.dnsResolve poll name)

inductive Event where
  | arrives (frame : List UInt8)
  | call (call : Call)

/-- One event. Nested polls take a frame each, so the fuel of a call is never used up. -/
def step (stack : Stack) : Event → Option Stack
  | .arrives frame => some { stack with incoming := stack.incoming ++ [frame] }
  | .call call => (call.code (netPoll (stack.incoming.length + 1)) stack).map Prod.snd

def initialTcp : Tcp.State where
  phase := .closed
  remoteIp := [0, 0, 0, 0]
  localPort := 0
  remotePort := 0
  sndNxt := 0
  rcvNxt := 0
  rxData := []
  gotSynack := false
  gotFin := false
  isnSeed := 0xC0FFEE
  nextPort := 42000
  listening := false
  sent := []

/-- The static variables when the kernel starts. -/
def initialStack : Stack where
  mac := [0, 0, 0, 0, 0, 0]
  gwMac := [0, 0, 0, 0, 0, 0]
  gwMacValid := false
  netUp := false
  arpIp := [0, 0, 0, 0]
  arpMac := [0, 0, 0, 0, 0, 0]
  arpHave := false
  ipId := 0
  tcp := initialTcp
  udp := ⟨[], [0, 0, 0, 0], 0, 0, false, false⟩
  txid := 0x1234
  incoming := []
  sent := []

def Reachable (stack : Stack) : Prop := ∃ events : List Event, events.foldlM step initialStack = some stack

end GWKernel.Net
