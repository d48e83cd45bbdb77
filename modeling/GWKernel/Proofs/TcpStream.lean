import GWKernel.Lib.Run
import GWKernel.Tcp

/-! The byte stream that `tcp_recv` returns. The peer's segments may be lost, duplicated and
reordered; a condition says which deliveries a run contains. -/

namespace GWKernel.Tcp
open Lib List

/-- The other end: its address and ports, the sequence number of its first byte,
and all it has to say. -/
structure Peer where
  ip : List UInt8
  port : Nat
  localPort : Nat
  base : Nat
  stream : List UInt8

def doffOf (bytes : List UInt8) : Nat := byteAt bytes 12 / 16 * 4

def payloadOf (bytes : List UInt8) : List UInt8 := bytes.drop (doffOf bytes)

def hasFin (bytes : List UInt8) : Bool := byteAt bytes 13 &&& 0x01 ≠ 0

/-- A segment carved from the peer's stream at `offset`, the FIN only after the
last byte. -/
structure Carved (peer : Peer) (offset : Nat) (srcIp bytes : List UInt8) : Prop where
  source : srcIp = peer.ip
  ports : be16 bytes 0 = peer.port ∧ be16 bytes 2 = peer.localPort
  header : 20 ≤ doffOf bytes ∧ doffOf bytes ≤ bytes.length
  seq : be32 bytes 4 = u32 (peer.base + offset)
  within : offset + (payloadOf bytes).length ≤ peer.stream.length
  payload : payloadOf bytes = (peer.stream.drop offset).take (payloadOf bytes).length
  fin : hasFin bytes = true → offset + (payloadOf bytes).length = peer.stream.length

/-- The bytes returned so far, the state an arrival meets, its offset, its payload and its FIN. -/
abbrev Condition := Nat → State → Nat → List UInt8 → Bool → Prop

variable (condition : Condition) (peer : Peer) (returned : Nat)

mutual

/-- The arrival is carved from the stream and meets the condition, and so does all that arrives
while it is acknowledged. -/
def Delivered : Arrival → State → Prop
  | .mk srcIp bytes first firstDelivered second _, tcp =>
    (∃ offset, Carved peer offset srcIp bytes ∧ condition returned tcp offset (payloadOf bytes) (hasFin bytes)) ∧
    (0 < (payloadOf bytes).length → DeliveredAll first (acceptData (be32 bytes 4) (payloadOf bytes) tcp)) ∧
    (hasFin bytes = true → DeliveredAll second (acceptFin (be32 bytes 4) (payloadOf bytes).length
      (if 0 < (payloadOf bytes).length then
        sendAck (netPolls first) firstDelivered (acceptData (be32 bytes 4) (payloadOf bytes) tcp) else tcp)))

def DeliveredAll : List Arrival → State → Prop
  | [], _ => True
  | arrival :: rest, tcp => Delivered arrival tcp ∧ DeliveredAll rest (if tcp.listening then onTcp arrival tcp else tcp)

end

def PollsDelivered : List (Option Arrival) → State → Prop
  | [], _ => True
  | poll :: polls, tcp =>
    DeliveredAll condition peer returned poll.toList tcp ∧
    ((netPoll poll tcp).rxData = [] → (netPoll poll tcp).gotFin = false → PollsDelivered polls (netPoll poll tcp))

/-- The connection, with what `tcp_recv` has returned and whether it has reported
the end of the stream. -/
structure World where
  tcp : State
  returned : List UInt8
  ended : Bool

inductive Event where
  | deliver
  | recv (maxlen : Nat)

def World.after (world : World) : Received × State → World
  | (.data bytes, tcp) => { world with tcp, returned := world.returned ++ bytes }
  | (.endOfStream, tcp) => { world with tcp, ended := true }
  | (.timeout, tcp) => { world with tcp }

inductive Step : World → Event → World → Prop where
  | deliver {world : World} {arrival : Arrival}
      (delivered : Delivered condition peer world.returned.length arrival world.tcp) :
      Step world .deliver { world with tcp := onTcp arrival world.tcp }
  | recv {world : World} {maxlen : Nat} {polls : List (Option Arrival)} (positive : 0 < maxlen)
      (delivered : PollsDelivered condition peer world.returned.length polls world.tcp) :
      Step world (.recv maxlen) (world.after (tcpRecv maxlen polls world.tcp))

structure Established (tcp : State) : Prop where
  phase : tcp.phase = .est
  remote : tcp.remoteIp = peer.ip ∧ tcp.remotePort = peer.port ∧ tcp.localPort = peer.localPort
  listening : tcp.listening = true
  next : tcp.rcvNxt = u32 peer.base
  empty : tcp.rxData = [] ∧ tcp.gotFin = false

def World.Faithful (world : World) : Prop :=
  world.returned <+: peer.stream ∧ (world.ended = true → world.returned = peer.stream)

/-- If the arrival is the next expected it fits the buffer, and a FIN comes with or after the last
data. -/
def InTime : Condition := fun returned tcp offset payload fin =>
  (offset = returned + tcp.rxData.length → payload.length ≤ rxDataSize - tcp.rxData.length) ∧
  (fin = true → offset = returned + tcp.rxData.length ∨ returned + tcp.rxData.length = peer.stream.length)

/-- The buffer continues the stream after the bytes returned so far. -/
structure Tracks (tcp : State) : Prop where
  phase : tcp.phase = .est ∨ tcp.phase = .closeWait
  remote : tcp.remoteIp = peer.ip ∧ tcp.remotePort = peer.port ∧ tcp.localPort = peer.localPort
  listening : tcp.listening = true
  buffered : tcp.rxData = (peer.stream.drop returned).take tcp.rxData.length
  within : returned + tcp.rxData.length ≤ peer.stream.length
  next : tcp.rcvNxt = u32 (peer.base + (returned + tcp.rxData.length)) ∨
    returned + tcp.rxData.length = peer.stream.length ∧ tcp.rcvNxt = u32 (peer.base + (peer.stream.length + 1))
  fin : tcp.gotFin = true → returned + tcp.rxData.length = peer.stream.length

variable {peer returned} {tcp : State}

section
variable {offset : Nat} {srcIp bytes : List UInt8} (short : peer.stream.length + 1 < 2 ^ 32)
  (tracks : Tracks peer returned tcp) (carved : Carved peer offset srcIp bytes)
include short tracks carved

theorem Tracks.expected : be32 bytes 4 = tcp.rcvNxt →
    offset = returned + tcp.rxData.length ∧ tcp.rcvNxt = u32 (peer.base + (returned + tcp.rxData.length)) := by
  intro same
  have within := carved.within
  have bound := tracks.within
  rw [carved.seq] at same
  rcases tracks.next with next | ⟨full, next⟩
  · rw [next] at same
    simp only [u32] at same
    exact ⟨by omega, next⟩
  · rw [next] at same
    simp only [u32] at same
    omega

theorem Tracks.acceptData (nonempty : 0 < (payloadOf bytes).length)
    (inTime : InTime peer returned tcp offset (payloadOf bytes) (hasFin bytes)) :
    Tracks peer returned (acceptData (be32 bytes 4) (payloadOf bytes) tcp) ∧
      tcp.rxData.length ≤ (Tcp.acceptData (be32 bytes 4) (payloadOf bytes) tcp).rxData.length ∧
      (hasFin bytes = true →
        returned + (Tcp.acceptData (be32 bytes 4) (payloadOf bytes) tcp).rxData.length = peer.stream.length) := by
  by_cases same : be32 bytes 4 = tcp.rcvNxt
  · obtain ⟨here, next⟩ := tracks.expected short carved same
    have fits := inTime.1 here
    have within := carved.within
    have whole : (if (payloadOf bytes).length < rxDataSize - tcp.rxData.length then (payloadOf bytes).length
        else rxDataSize - tcp.rxData.length) = (payloadOf bytes).length := by
      split <;> omega
    have open' : tcp.gotFin = true → False := by
      intro ended
      have full := tracks.fin ended
      omega
    simp only [Tcp.acceptData, same, if_true, whole, take_length]
    refine ⟨⟨tracks.phase, tracks.remote, tracks.listening, ?_, ?_, ?_, fun ended => (open' ended).elim⟩, ?_, ?_⟩
    · rw [length_append, take_add, ← tracks.buffered, drop_drop, ← here]
      exact congrArg (tcp.rxData ++ ·) carved.payload
    · rw [length_append]
      omega
    · left
      rw [next, length_append]
      simp only [u32]
      omega
    · rw [length_append]
      omega
    · intro last
      have done := carved.fin last
      rw [length_append]
      omega
  · simp only [Tcp.acceptData, same, if_false]
    refine ⟨tracks, Nat.le_refl _, fun last => ?_⟩
    rcases inTime.2 last with here | full
    · -- The expected segment has the expected sequence number, or the stream is over.
      rcases tracks.next with next | ⟨full, _⟩
      · exact absurd (carved.seq.trans (by rw [here]; exact next.symm)) same
      · exact full
    · exact full

theorem Tracks.acceptFin (last : hasFin bytes = true) (full : returned + tcp.rxData.length = peer.stream.length) :
    Tracks peer returned (acceptFin (be32 bytes 4) (payloadOf bytes).length tcp) := by
  have done := carved.fin last
  have ended : ∀ rcvNxt, (rcvNxt = tcp.rcvNxt ∨ rcvNxt = u32 (peer.base + (peer.stream.length + 1))) →
      Tracks peer returned { tcp with rcvNxt, gotFin := true } := by
    intro rcvNxt either
    refine ⟨tracks.phase, tracks.remote, tracks.listening, tracks.buffered, tracks.within, ?_, fun _ => full⟩
    rcases either with rfl | rfl
    · exact tracks.next
    · exact .inr ⟨full, rfl⟩
  simp only [Tcp.acceptFin]
  split
  next same =>
    obtain ⟨here, _⟩ := tracks.expected short carved same
    refine ended _ (.inr ?_)
    rw [carved.seq]
    simp only [u32]
    omega
  next =>
    split
    next empty =>
      refine ended _ (.inr ?_)
      rw [carved.seq]
      simp only [u32]
      omega
    next => exact ended _ (.inl rfl)

end

theorem acceptFin_rxData (seq plen : Nat) (tcp : State) : (acceptFin seq plen tcp).rxData = tcp.rxData := by
  simp only [acceptFin]
  split
  · rfl
  · split <;> rfl

theorem sendAck_eq (wait : State → State) (delivered : Bool) (tcp : State) :
    ∃ sent, sendAck wait delivered tcp = { wait tcp with sent } := by
  unfold sendAck sendSegment
  simp only [length_nil, Nat.add_zero, show ¬1400 < 20 by omega, if_false]
  split
  · exact ⟨_, rfl⟩
  · exact ⟨_, rfl⟩

theorem Tracks.sendAck {wait : State → State} (tracks : Tracks peer returned (wait tcp)) (delivered : Bool) :
    Tracks peer returned (sendAck wait delivered tcp) ∧ (Tcp.sendAck wait delivered tcp).rxData = (wait tcp).rxData := by
  obtain ⟨sent, same⟩ := sendAck_eq wait delivered tcp
  rw [same]
  exact ⟨⟨tracks.phase, tracks.remote, tracks.listening, tracks.buffered, tracks.within, tracks.next, tracks.fin⟩, rfl⟩

theorem onTcp_carved (phase : tcp.phase = .est ∨ tcp.phase = .closeWait)
    (remote : tcp.remoteIp = peer.ip ∧ tcp.remotePort = peer.port ∧ tcp.localPort = peer.localPort) {offset : Nat}
    {srcIp bytes : List UInt8} (carved : Carved peer offset srcIp bytes) (first second : List Arrival) (firstDelivered secondDelivered : Bool) :
    onTcp (.mk srcIp bytes first firstDelivered second secondDelivered) tcp =
      onEstablished (be32 bytes 4) (payloadOf bytes) (byteAt bytes 13) (sendAck (netPolls first) firstDelivered)
        (sendAck (netPolls second) secondDelivered) tcp := by
  have long := carved.header
  have length : ¬bytes.length < 20 := by omega
  have header : ¬(byteAt bytes 12 / 16 * 4 < 20 ∨ bytes.length < byteAt bytes 12 / 16 * 4) := by
    simp only [doffOf] at long
    omega
  obtain ⟨ip, port, localPort⟩ := remote
  simp only [onTcp, length, header, carved.source, carved.ports, ip, port, localPort, ne_eq, not_true_eq_false, if_false]
  rcases phase with phase | phase <;> rw [phase] <;> rfl

def Advances (peer : Peer) (returned : Nat) (before after : State) : Prop :=
  Tracks peer returned after ∧ before.rxData.length ≤ after.rxData.length

theorem Advances.trans {first second third : State} (left : Advances peer returned first second)
    (right : Advances peer returned second third) : Advances peer returned first third :=
  ⟨right.1, Nat.le_trans left.2 right.2⟩

mutual

theorem onTcp_advances (short : peer.stream.length + 1 < 2 ^ 32) {tcp : State} (tracks : Tracks peer returned tcp) :
    ∀ arrival, Delivered (InTime peer) peer returned arrival tcp → Advances peer returned tcp (onTcp arrival tcp)
  | .mk srcIp bytes first firstDelivered second secondDelivered, delivered => by
    simp only [Delivered] at delivered
    obtain ⟨⟨offset, carved, inTime⟩, during, after⟩ := delivered
    rw [onTcp_carved tracks.phase tracks.remote carved]
    simp only [onEstablished]
    -- The data part, with everything that arrives while it is acknowledged.
    have data : Advances peer returned tcp (if 0 < (payloadOf bytes).length then
          sendAck (netPolls first) firstDelivered (acceptData (be32 bytes 4) (payloadOf bytes) tcp) else tcp) ∧
        (hasFin bytes = true → returned + (if 0 < (payloadOf bytes).length then
          sendAck (netPolls first) firstDelivered (acceptData (be32 bytes 4) (payloadOf bytes) tcp)
          else tcp).rxData.length = peer.stream.length) := by
      split
      next nonempty =>
        obtain ⟨accepted, longer, full⟩ := tracks.acceptData short carved nonempty inTime
        obtain ⟨polled, grown⟩ := netPolls_advances short accepted first (during nonempty)
        obtain ⟨acked, same⟩ := polled.sendAck firstDelivered
        refine ⟨⟨acked, by rw [same]; omega⟩, fun last => ?_⟩
        have whole := full last
        have within := polled.within
        rw [same]
        omega
      next empty =>
        refine ⟨⟨tracks, Nat.le_refl _⟩, fun last => ?_⟩
        have done := carved.fin last
        rcases inTime.2 last with here | full
        · omega
        · exact full
    generalize (if 0 < (payloadOf bytes).length then
      sendAck (netPolls first) firstDelivered (acceptData (be32 bytes 4) (payloadOf bytes) tcp) else tcp) = middle
      at data after ⊢
    split
    next flag =>
      have last : hasFin bytes = true := by simpa [hasFin] using flag
      obtain ⟨⟨kept, longer⟩, full⟩ := data
      have finished := kept.acceptFin short carved last (full last)
      obtain ⟨polled, grown⟩ := netPolls_advances short finished second (after last)
      obtain ⟨acked, same⟩ := polled.sendAck secondDelivered
      refine ⟨⟨.inr rfl, acked.remote, acked.listening, acked.buffered, acked.within, acked.next, acked.fin⟩, ?_⟩
      simp only [same]
      rw [acceptFin_rxData] at grown
      omega
    next => exact data.1

theorem netPolls_advances (short : peer.stream.length + 1 < 2 ^ 32) {tcp : State} (tracks : Tracks peer returned tcp) :
    ∀ arrivals, DeliveredAll (InTime peer) peer returned arrivals tcp → Advances peer returned tcp (netPolls arrivals tcp)
  | [], _ => ⟨by simpa only [netPolls] using tracks, by simp only [netPolls]; exact Nat.le_refl _⟩
  | arrival :: rest, delivered => by
    simp only [DeliveredAll, tracks.listening, if_true] at delivered
    simp only [netPolls, tracks.listening, if_true]
    have here := onTcp_advances short tracks arrival delivered.1
    exact here.trans (netPolls_advances short here.1 rest delivered.2)

end

theorem Tracks.take (tracks : Tracks peer returned tcp) {count : Nat} (available : count ≤ tcp.rxData.length) :
    Tracks peer (returned + count) { tcp with rxData := tcp.rxData.drop count } ∧
      tcp.rxData.take count = (peer.stream.drop returned).take count := by
  have length : returned + count + (tcp.rxData.drop count).length = returned + tcp.rxData.length := by
    rw [length_drop]
    omega
  refine ⟨⟨tracks.phase, tracks.remote, tracks.listening, ?_, ?_, ?_, ?_⟩, ?_⟩
  · have buffered := congrArg (List.drop count) tracks.buffered
    rw [drop_take, drop_drop] at buffered
    simpa only [length_drop] using buffered
  · simpa only [length] using tracks.within
  · simpa only [length] using tracks.next
  · simpa only [length] using tracks.fin
  · rw [tracks.buffered, take_take, Nat.min_eq_left available]

def Yields (peer : Peer) (returned : Nat) : Received × State → Prop
  | (.data bytes, tcp) => Tracks peer (returned + bytes.length) tcp ∧ bytes = (peer.stream.drop returned).take bytes.length
  | (.endOfStream, tcp) => Tracks peer returned tcp ∧ returned = peer.stream.length
  | (.timeout, tcp) => Tracks peer returned tcp

theorem tcpRecv_yields (short : peer.stream.length + 1 < 2 ^ 32) (maxlen : Nat) {polls : List (Option Arrival)}
    {tcp : State} (tracks : Tracks peer returned tcp) (delivered : PollsDelivered (InTime peer) peer returned polls tcp) :
    Yields peer returned (tcpRecv maxlen polls tcp) := by
  induction polls generalizing tcp with
  | nil => exact tracks
  | cons poll polls ih =>
    obtain ⟨arrival, later⟩ := delivered
    have polled : Tracks peer returned (netPoll poll tcp) := (netPolls_advances short tracks poll.toList arrival).1
    simp only [tcpRecv]
    generalize netPoll poll tcp = current at *
    split
    next filled =>
      generalize available : (if current.rxData.length < maxlen then current.rxData.length else maxlen) = count
      have bound : count ≤ current.rxData.length := by
        rw [← available]
        split <;> omega
      obtain ⟨kept, prefixed⟩ := polled.take bound
      have length : (current.rxData.take count).length = count := by
        rw [length_take]
        omega
      simp only [Yields, length]
      exact ⟨kept, prefixed⟩
    next empty =>
      have drained : current.rxData = [] := length_eq_zero_iff.mp (by omega)
      split
      next ended =>
        have full := polled.fin ended
        rw [drained] at full
        exact ⟨polled, full⟩
      next open' => exact ih polled (later drained (by simpa using open'))

structure World.Sound (peer : Peer) (world : World) : Prop where
  tracks : Tracks peer world.returned.length world.tcp
  faithful : world.Faithful peer

private theorem prefix_extend {returned more stream : List UInt8} (start : returned <+: stream)
    (next : more = (stream.drop returned.length).take more.length) : returned ++ more <+: stream := by
  obtain ⟨rest, rfl⟩ := start
  rw [drop_left] at next
  rw [next]
  exact (prefix_append_right_inj returned).mpr ( take_prefix _ _)

theorem World.Sound.step (short : peer.stream.length + 1 < 2 ^ 32) {before after : World} {event : Event}
    (sound : before.Sound peer) (moves : Step (InTime peer) peer before event after) : after.Sound peer := by
  cases moves with
  | deliver delivered => exact ⟨(onTcp_advances short sound.tracks _ delivered).1, sound.faithful⟩
  | @recv maxlen polls positive delivered =>
    have yields := tcpRecv_yields short maxlen sound.tracks delivered
    obtain ⟨start, ended⟩ := sound.faithful
    match result : tcpRecv maxlen polls before.tcp with
    | (.data bytes, tcp) =>
      rw [result] at yields
      obtain ⟨tracks, next⟩ := yields
      refine ⟨by simpa only [World.after, length_append] using tracks, prefix_extend start next, fun finished => ?_⟩
      -- Nothing is left once the end has been reported.
      have whole := ended finished
      have nothing : bytes = [] := by
        rw [whole, drop_length, take_nil] at next
        exact next
      simp only [World.after, nothing, append_nil]
      exact whole
    | (.endOfStream, tcp) =>
      rw [result] at yields
      exact ⟨yields.1, start, fun _ => start.eq_of_length yields.2⟩
    | (.timeout, tcp) =>
      rw [result] at yields
      exact ⟨yields, start, ended⟩

/-- If each segment arrives in time, `tcp_recv` returns the stream in order and reports its end
only when all of it has been returned. -/
theorem stream_faithful (short : peer.stream.length + 1 < 2 ^ 32) (established : Established peer tcp)
    {events : List Event} {world : World} (run : Run (Step (InTime peer) peer) ⟨tcp, [], false⟩ events world) :
    world.Faithful peer := by
  have initial : World.Sound peer ⟨tcp, [], false⟩ := by
    obtain ⟨phase, remote, listening, next, empty, open'⟩ := established
    refine ⟨⟨.inl phase, remote, listening, ?_, ?_, ?_, ?_⟩, nil_prefix, by simp⟩
    · simp [empty]
    · simp [empty]
    · simpa [empty] using .inl next
    · simp [open']
  exact (run.preserves (fun _ _ _ sound moves => sound.step short moves) initial).faithful

def carve (peer : Peer) (offset count flags : Nat) : List UInt8 :=
  toBe16 peer.port ++ toBe16 peer.localPort ++ toBe32 (peer.base + offset) ++ toBe32 0 ++
    [0x50, UInt8.ofNat flags, 0x40, 0, 0, 0, 0, 0] ++ (peer.stream.drop offset).take count

def shortPeer : Peer := ⟨[10, 0, 2, 2], 80, 42000, 1000, [7, 9]⟩

def shortConnection : State :=
  ⟨.est, [10, 0, 2, 2], 42000, 80, 500, 1000, [], true, false, 0, 42001, true, []⟩

theorem shortConnection_established : Established shortPeer shortConnection :=
  ⟨rfl, ⟨rfl, rfl, rfl⟩, rfl, rfl, rfl, rfl⟩

theorem stream_faithful_short_peer :
    ∃ world, Run (Step (InTime shortPeer) shortPeer) ⟨shortConnection, [], false⟩ [.deliver, .recv 16] world ∧
      world.returned = [7, 9] ∧ world.Faithful shortPeer := by
  have carved : Carved shortPeer 0 shortPeer.ip (carve shortPeer 0 2 0x11) := by
    refine ⟨rfl, by decide, by decide, by decide, by decide, by decide, by decide⟩
  have delivered : Delivered (InTime shortPeer) shortPeer 0 (.mk shortPeer.ip (carve shortPeer 0 2 0x11) [] true [] true)
      shortConnection := by
    refine ⟨⟨0, carved, by decide, fun _ => .inl rfl⟩, fun _ => trivial, fun _ => trivial⟩
  have run := Run.next (@Step.deliver _ _ ⟨shortConnection, [], false⟩ _ delivered)
    (.next (Step.recv (show 0 < 16 by omega) (show PollsDelivered (InTime shortPeer) shortPeer _ [none] _ from
      ⟨trivial, fun _ _ => trivial⟩)) (.done _))
  exact ⟨_, run, rfl, stream_faithful (by decide) shortConnection_established run⟩

/-- A FIN that overtakes the data ends the stream before its first byte. -/
theorem early_fin_truncates_stream :
    ∃ world, Run (Step (fun _ _ _ _ _ => True) shortPeer) ⟨shortConnection, [], false⟩ [.deliver, .recv 16] world ∧
      world.ended = true ∧ world.returned = [] ∧ shortPeer.stream ≠ [] := by
  have carved : Carved shortPeer 2 shortPeer.ip (carve shortPeer 2 0 0x11) := by
    refine ⟨rfl, by decide, by decide, by decide, by decide, by decide, by decide⟩
  have delivered : Delivered (fun _ _ _ _ _ => True) shortPeer 0
      (.mk shortPeer.ip (carve shortPeer 2 0 0x11) [] true [] true) shortConnection := by
    refine ⟨⟨2, carved, trivial⟩, fun _ => trivial, fun _ => trivial⟩
  have run := Run.next (@Step.deliver _ _ ⟨shortConnection, [], false⟩ _ delivered)
    (.next (Step.recv (show 0 < 16 by omega) (show PollsDelivered (fun _ _ _ _ _ => True) shortPeer _ [none] _ from
      ⟨trivial, fun _ _ => trivial⟩)) (.done _))
  exact ⟨_, run, rfl, rfl, by decide⟩

end GWKernel.Tcp
