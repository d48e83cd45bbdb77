import GWKernel.Proofs.TcpStream

/-! The acknowledgement numbers that `on_tcp` sends. The right one is the first of the stream that
no received segment covers, and one more for the FIN; the code keeps one number instead. -/

namespace GWKernel.Tcp.Acks
open Lib List

structure Segment where
  offset : Nat
  length : Nat
  fin : Bool
deriving DecidableEq, Repr

def segmentOf (peer : Peer) (bytes : List UInt8) : Segment :=
  ⟨(be32 bytes 4 + 2 ^ 32 - peer.base % 2 ^ 32) % 2 ^ 32, (payloadOf bytes).length, hasFin bytes⟩

def covers (seen : List Segment) (index : Nat) : Bool :=
  seen.any fun segment => segment.offset ≤ index ∧ index < segment.offset + segment.length

variable (peer : Peer)

def contiguous (seen : List Segment) : Nat :=
  ((List.range peer.stream.length).find? fun index => !covers seen index).getD peer.stream.length

def complete (seen : List Segment) : Bool := seen.any (·.fin) ∧ contiguous peer seen = peer.stream.length

def expected (seen : List Segment) : Nat :=
  u32 (peer.base + contiguous peer seen + if complete peer seen then 1 else 0)

variable {peer} {seen : List Segment} {segment : Segment}

theorem contiguous_cases (peer : Peer) (seen : List Segment) : contiguous peer seen = peer.stream.length ∨
    contiguous peer seen < peer.stream.length ∧ covers seen (contiguous peer seen) = false := by
  unfold contiguous
  cases found : (List.range peer.stream.length).find? fun index => !covers seen index with
  | none => exact .inl rfl
  | some index =>
    refine .inr ⟨?_, ?_⟩
    · exact mem_range.mp (mem_of_find?_eq_some found)
    · simpa using find?_some found

theorem contiguous_le (peer : Peer) (seen : List Segment) : contiguous peer seen ≤ peer.stream.length := by
  rcases contiguous_cases peer seen with whole | ⟨less, _⟩ <;> omega

theorem contiguous_nil (peer : Peer) : contiguous peer [] = 0 := by
  unfold contiguous
  cases peer.stream.length with
  | zero => rfl
  | succ count =>
    rw [range_succ_eq_map]
    rfl

theorem covers_append (seen : List Segment) (segment : Segment) (index : Nat) :
    covers (seen ++ [segment]) index =
      (covers seen index || decide (segment.offset ≤ index ∧ index < segment.offset + segment.length)) := by
  simp [covers]

theorem contiguous_empty (empty : segment.length = 0) :
    contiguous peer (seen ++ [segment]) = contiguous peer seen := by
  have same (index : Nat) : covers (seen ++ [segment]) index = covers seen index := by
    have nowhere : ¬(segment.offset ≤ index ∧ index < segment.offset + segment.length) := by omega
    simp [covers_append, nowhere]
  simp only [contiguous, same]

theorem contiguous_of_last (inside : segment ∈ seen) (last : segment.offset + segment.length = peer.stream.length)
    (before : segment.offset ≤ contiguous peer seen) : contiguous peer seen = peer.stream.length := by
  rcases contiguous_cases peer seen with whole | ⟨less, gap⟩
  · exact whole
  · have covered : covers seen (contiguous peer seen) = true :=
      List.any_eq_true.mpr ⟨segment, inside, by simp only [decide_eq_true_eq]; omega⟩
    rw [gap] at covered
    cases covered

theorem expected_of_complete (done : complete peer seen = true) :
    expected peer seen = u32 (peer.base + peer.stream.length + 1) ∧ contiguous peer seen = peer.stream.length := by
  obtain ⟨_, whole⟩ := of_decide_eq_true done
  rw [expected, if_pos done, whole]
  exact ⟨rfl, rfl⟩

theorem expected_of_open (unfinished : complete peer seen = false) :
    expected peer seen = u32 (peer.base + contiguous peer seen) := by
  rw [expected, unfinished]
  rfl

/-- The segment moves the first number not received as the code moves its own: a segment at that
number up to its end, any other not at all. A FIN alone comes after all the data, and a FIN with
data does not complete the stream. -/
structure InStep (peer : Peer) (seen : List Segment) (segment : Segment) : Prop where
  data : 0 < segment.length → contiguous peer (seen ++ [segment]) =
    if segment.offset = contiguous peer seen then segment.offset + segment.length else contiguous peer seen
  fin : segment.fin = true → segment.length = 0 → contiguous peer seen = peer.stream.length
  completes : complete peer (seen ++ [segment]) = true →
    complete peer seen = true ∨ segment.fin = true ∧ segment.length = 0

mutual

def segments (peer : Peer) : Arrival → List Segment
  | .mk _ bytes first _ second _ =>
    segmentOf peer bytes :: ((if 0 < (payloadOf bytes).length then allSegments peer first else []) ++
      if hasFin bytes then allSegments peer second else [])

def allSegments (peer : Peer) : List Arrival → List Segment
  | [] => []
  | arrival :: rest => segments peer arrival ++ allSegments peer rest

end

mutual

/-- The arrival and everything that comes while it is acknowledged is carved from the
peer's stream and in step. -/
def Orderly (peer : Peer) : Arrival → List Segment → Prop
  | .mk srcIp bytes first _ second _, seen =>
    Carved peer (segmentOf peer bytes).offset srcIp bytes ∧ InStep peer seen (segmentOf peer bytes) ∧
    (0 < (payloadOf bytes).length → AllOrderly peer first (seen ++ [segmentOf peer bytes])) ∧
    (hasFin bytes = true → AllOrderly peer second (seen ++ [segmentOf peer bytes] ++
      if 0 < (payloadOf bytes).length then allSegments peer first else []))

def AllOrderly (peer : Peer) : List Arrival → List Segment → Prop
  | [], _ => True
  | arrival :: rest, seen => Orderly peer arrival seen ∧ AllOrderly peer rest (seen ++ segments peer arrival)

end

/-- A segment that `on_tcp` builds to acknowledge, with what has been received by then. -/
structure Ack where
  bytes : List UInt8
  received : List Segment

def ackOf (tcp : State) (received : List Segment) : Ack := ⟨buildSegment tcp 0x10 [] tcp.rcvNxt, received⟩

mutual

def acksOf (peer : Peer) : Arrival → List Segment → State → List Ack
  | .mk _ bytes first firstDelivered second _, seen, tcp =>
    let seen := seen ++ [segmentOf peer bytes]
    let taken := acceptData (be32 bytes 4) (payloadOf bytes) tcp
    let middle := if 0 < (payloadOf bytes).length then sendAck (netPolls first) firstDelivered taken else tcp
    let later := seen ++ if 0 < (payloadOf bytes).length then allSegments peer first else []
    let ended := acceptFin (be32 bytes 4) (payloadOf bytes).length middle
    (if 0 < (payloadOf bytes).length then ackOf taken seen :: allAcks peer first seen taken else []) ++
      if hasFin bytes then ackOf ended later :: allAcks peer second later ended else []

def allAcks (peer : Peer) : List Arrival → List Segment → State → List Ack
  | [], _, _ => []
  | arrival :: rest, seen, tcp =>
    acksOf peer arrival seen tcp ++ allAcks peer rest (seen ++ segments peer arrival) (onTcp arrival tcp)

end

def Ack.Right (peer : Peer) (ack : Ack) : Prop := be32 ack.bytes 8 = expected peer ack.received

/-- The connection acknowledges what it has received. -/
structure Counts (peer : Peer) (seen : List Segment) (tcp : State) : Prop where
  phase : tcp.phase = .est ∨ tcp.phase = .closeWait
  remote : tcp.remoteIp = peer.ip ∧ tcp.remotePort = peer.port ∧ tcp.localPort = peer.localPort
  listening : tcp.listening = true
  next : tcp.rcvNxt = expected peer seen

variable {tcp : State}

theorem Counts.ack_right (counts : Counts peer seen tcp) : (ackOf tcp seen).Right peer := by
  have field : be32 (buildSegment tcp 0x10 [] tcp.rcvNxt) 8 = be32 (toBe32 tcp.rcvNxt ++ []) 0 := rfl
  have small : tcp.rcvNxt < 2 ^ 32 := by
    rw [counts.next]
    exact Nat.mod_lt _ (by omega)
  exact field.trans ((be32_toBe32 small []).trans counts.next)

variable {wait : State → State} {acks : List Ack}

theorem Counts.sendAck (counts : Counts peer seen (wait tcp)) (delivered : Bool) :
    Counts peer seen (sendAck wait delivered tcp) := by
  obtain ⟨sent, same⟩ := sendAck_eq wait delivered tcp
  rw [same]
  exact ⟨counts.phase, counts.remote, counts.listening, counts.next⟩

section Step

variable {srcIp bytes : List UInt8} (short : peer.stream.length + 1 < 2 ^ 32) (counts : Counts peer seen tcp)
  (carved : Carved peer (segmentOf peer bytes).offset srcIp bytes)
include short counts carved

/-- The number waited for is the first one not received, until the FIN has been counted. -/
theorem seq_expected : be32 bytes 4 = tcp.rcvNxt ↔
    (segmentOf peer bytes).offset = contiguous peer seen ∧ complete peer seen = false := by
  have within := carved.within
  have bound := contiguous_le peer seen
  rw [carved.seq, counts.next]
  generalize (segmentOf peer bytes).offset = offset at within
  cases done : complete peer seen with
  | true =>
    obtain ⟨number, whole⟩ := expected_of_complete done
    rw [number]
    simp only [u32]
    constructor
    · intro same
      omega
    · rintro ⟨_, impossible⟩
      cases impossible
  | false =>
    rw [expected_of_open done]
    simp only [u32]
    constructor
    · intro same
      exact ⟨by omega, trivial⟩
    · rintro ⟨rfl, _⟩
      rfl

theorem counts_acceptData (inStep : InStep peer seen (segmentOf peer bytes)) (nonempty : 0 < (payloadOf bytes).length) :
    Counts peer (seen ++ [segmentOf peer bytes]) (acceptData (be32 bytes 4) (payloadOf bytes) tcp) := by
  have place := seq_expected short counts carved
  have within := carved.within
  have moves := inStep.data nonempty
  have completes (done : complete peer (seen ++ [segmentOf peer bytes]) = true) : complete peer seen = true :=
    (inStep.completes done).resolve_right fun alone => absurd alone.2 (by simp only [segmentOf]; omega)
  unfold acceptData
  split
  next same =>
    obtain ⟨here, unfinished⟩ := place.mp same
    have still : complete peer (seen ++ [segmentOf peer bytes]) = false := by
      by_contra done
      rw [completes (by simpa using done)] at unfinished
      cases unfinished
    refine ⟨counts.phase, counts.remote, counts.listening, ?_⟩
    rw [expected_of_open still, moves, if_pos here, here, counts.next, expected_of_open unfinished]
    simp only [u32, segmentOf]
    omega
  next other =>
    have unmoved : contiguous peer (seen ++ [segmentOf peer bytes]) = contiguous peer seen := by
      by_cases here : (segmentOf peer bytes).offset = contiguous peer seen
      · have done : complete peer seen = true := by
          by_contra unfinished
          exact other (place.mpr ⟨here, by simpa using unfinished⟩)
        obtain ⟨_, whole⟩ := expected_of_complete done
        omega
      · rw [moves, if_neg here]
    have same : complete peer (seen ++ [segmentOf peer bytes]) = complete peer seen := by
      rw [Bool.eq_iff_iff]
      refine ⟨completes, fun done => ?_⟩
      obtain ⟨fin, whole⟩ := of_decide_eq_true done
      exact decide_eq_true ⟨by simp [fin], unmoved.trans whole⟩
    refine ⟨counts.phase, counts.remote, counts.listening, ?_⟩
    rw [counts.next, expected, expected, unmoved, same]

omit short in
theorem counts_fin (inStep : InStep peer seen (segmentOf peer bytes)) (empty : (payloadOf bytes).length = 0)
    (last : hasFin bytes = true) :
    Counts peer (seen ++ [segmentOf peer bytes]) (acceptFin (be32 bytes 4) (payloadOf bytes).length tcp) := by
  have whole := inStep.fin last empty
  have ends := carved.fin last
  have grown : contiguous peer (seen ++ [segmentOf peer bytes]) = peer.stream.length :=
    (contiguous_empty empty).trans whole
  have done : complete peer (seen ++ [segmentOf peer bytes]) = true := by
    refine decide_eq_true ⟨?_, grown⟩
    simp [segmentOf, last]
  have number : u32 (be32 bytes 4 + 1) = expected peer (seen ++ [segmentOf peer bytes]) := by
    rw [(expected_of_complete done).1, carved.seq]
    simp only [u32]
    omega
  have counted (rcvNxt : Nat) (is : rcvNxt = expected peer (seen ++ [segmentOf peer bytes])) :
      Counts peer (seen ++ [segmentOf peer bytes]) { tcp with rcvNxt, gotFin := true } :=
    ⟨counts.phase, counts.remote, counts.listening, is⟩
  simp only [acceptFin, empty]
  split
  · exact counted _ number
  · exact counted _ number

theorem counts_fin_with_data (nonempty : 0 < (payloadOf bytes).length) (last : hasFin bytes = true)
    (known : segmentOf peer bytes ∈ seen) :
    Counts peer seen (acceptFin (be32 bytes 4) (payloadOf bytes).length tcp) := by
  have ends := carved.fin last
  have other : be32 bytes 4 ≠ tcp.rcvNxt := by
    intro same
    obtain ⟨here, _⟩ := (seq_expected short counts carved).mp same
    have whole := contiguous_of_last known ends (Nat.le_of_eq here)
    omega
  simp only [acceptFin]
  rw [if_neg other, if_neg (by omega)]
  exact ⟨counts.phase, counts.remote, counts.listening, counts.next⟩

omit short carved in
theorem counts_pure (empty : (payloadOf bytes).length = 0) (none : hasFin bytes = false) :
    Counts peer (seen ++ [segmentOf peer bytes]) tcp := by
  have grown : contiguous peer (seen ++ [segmentOf peer bytes]) = contiguous peer seen := contiguous_empty empty
  have same : complete peer (seen ++ [segmentOf peer bytes]) = complete peer seen := by
    have silent : (segmentOf peer bytes).fin = false := none
    simp [complete, grown, silent]
  refine ⟨counts.phase, counts.remote, counts.listening, ?_⟩
  rw [counts.next, expected, expected, grown, same]

end Step

theorem fin_flag (bytes : List UInt8) : byteAt bytes 13 &&& 0x01 ≠ 0 ↔ hasFin bytes = true := by simp [hasFin]

/-- The segments of `seen` have been counted, with the right acknowledgements, and nothing else
was sent. -/
structure Keeps (peer : Peer) (before : State) (seen : List Segment) (after : State) (acks : List Ack) : Prop where
  counts : Counts peer seen after
  right : ∀ ack ∈ acks, ack.Right peer
  logged : ∀ bytes ∈ after.sent, bytes ∈ before.sent ∨ ∃ ack ∈ acks, ack.bytes = bytes

theorem Keeps.append {before middle after : State} {seen more : List Segment} {later : List Ack}
    (first : Keeps peer before seen middle acks) (second : Keeps peer middle more after later) :
    Keeps peer before more after (acks ++ later) := by
  refine ⟨second.counts, fun ack inside => ?_, fun bytes inside => ?_⟩
  · exact (mem_append.mp inside).elim (first.right ack) (second.right ack)
  · rcases second.logged bytes inside with earlier | ⟨ack, listed, is⟩
    · rcases first.logged bytes earlier with start | ⟨ack, listed, is⟩
      · exact .inl start
      · exact .inr ⟨ack, mem_append_left _ listed, is⟩
    · exact .inr ⟨ack, mem_append_right _ listed, is⟩

theorem sendAck_sent {delivered : Bool} {tcp : State} {bytes : List UInt8}
    (inside : bytes ∈ (Tcp.sendAck wait delivered tcp).sent) :
    bytes ∈ (wait tcp).sent ∨ bytes = (ackOf tcp []).bytes := by
  unfold Tcp.sendAck sendSegment at inside
  simp only [length_nil, Nat.add_zero, show ¬1400 < 20 by omega, if_false] at inside
  split at inside
  · simpa [ackOf] using inside
  · exact .inl inside

theorem Keeps.acknowledge {tcp : State} {more : List Segment} (counts : Counts peer seen tcp)
    (polled : Keeps peer tcp more (wait tcp) acks) (delivered : Bool) :
    Keeps peer tcp more (Tcp.sendAck wait delivered tcp) (ackOf tcp seen :: acks) := by
  refine ⟨polled.counts.sendAck delivered, ?_, fun bytes inside => ?_⟩
  · rintro ack (_ | ⟨_, inside⟩)
    · exact counts.ack_right
    · exact polled.right ack inside
  · rcases sendAck_sent inside with earlier | rfl
    · rcases polled.logged bytes earlier with start | ⟨ack, listed, is⟩
      · exact .inl start
      · exact .inr ⟨ack, mem_cons_of_mem _ listed, is⟩
    · exact .inr ⟨ackOf tcp seen, mem_cons_self, rfl⟩

theorem Keeps.silent {before start after : State} (keeps : Keeps peer start seen after acks)
    (same : start.sent = before.sent) : Keeps peer before seen after acks :=
  ⟨keeps.counts, keeps.right, same ▸ keeps.logged⟩

theorem acceptData_sent (seq : Nat) (payload : List UInt8) (tcp : State) :
    (acceptData seq payload tcp).sent = tcp.sent := by
  unfold acceptData
  split <;> rfl

theorem acceptFin_sent (seq plen : Nat) (tcp : State) : (acceptFin seq plen tcp).sent = tcp.sent := by
  simp only [acceptFin]
  split
  · rfl
  · split <;> rfl

mutual

theorem onTcp_keeps (short : peer.stream.length + 1 < 2 ^ 32) : ∀ (arrival : Arrival) {seen : List Segment} {tcp : State},
    Counts peer seen tcp → Orderly peer arrival seen →
      Keeps peer tcp (seen ++ segments peer arrival) (onTcp arrival tcp) (acksOf peer arrival seen tcp)
  | .mk srcIp bytes first firstDelivered second secondDelivered, seen, tcp, counts, orderly => by
    simp only [Orderly] at orderly
    obtain ⟨carved, inStep, during, after⟩ := orderly
    rw [onTcp_carved counts.phase counts.remote carved]
    -- The FIN part, from the state in which the FIN has been taken over.
    have closes {seen : List Segment} {state ended : State} (is : ended.sent = state.sent) (counts : Counts peer seen ended)
        (orderly : AllOrderly peer second seen) :
        Keeps peer state (seen ++ allSegments peer second)
          { sendAck (netPolls second) secondDelivered ended with phase := .closeWait }
          (ackOf ended seen :: allAcks peer second seen ended) := by
      have acked := Keeps.acknowledge counts (netPolls_keeps short second counts orderly) secondDelivered
      exact Keeps.silent ⟨⟨.inr rfl, acked.counts.remote, acked.counts.listening, acked.counts.next⟩, acked.right,
        acked.logged⟩ is
    by_cases nonempty : 0 < (payloadOf bytes).length
    · have taken := counts_acceptData short counts carved inStep nonempty
      have acked := (Keeps.acknowledge taken (netPolls_keeps short first taken (during nonempty)) firstDelivered).silent
        (acceptData_sent _ _ tcp)
      have shape (more : List Segment) : seen ++ segmentOf peer bytes :: (allSegments peer first ++ more) =
          seen ++ [segmentOf peer bytes] ++ allSegments peer first ++ more := by simp
      simp only [onEstablished, segments, acksOf, nonempty, if_true, shape]
      by_cases last : hasFin bytes = true
      · have known : segmentOf peer bytes ∈ seen ++ [segmentOf peer bytes] ++ allSegments peer first := by simp
        have orderly := after last
        rw [if_pos nonempty] at orderly
        rw [if_pos ((fin_flag bytes).mpr last), if_pos last, if_pos last]
        exact acked.append (closes (acceptFin_sent _ _ _)
          (counts_fin_with_data short acked.counts carved nonempty last known) orderly)
      · rw [if_neg fun flag => last ((fin_flag bytes).mp flag), if_neg last, if_neg last, append_nil, append_nil]
        exact acked
    · have empty : (payloadOf bytes).length = 0 := by omega
      simp only [onEstablished, segments, acksOf, nonempty, if_false, nil_append, append_nil]
      by_cases last : hasFin bytes = true
      · have orderly := after last
        rw [if_neg nonempty, append_nil] at orderly
        have shape (more : List Segment) : seen ++ segmentOf peer bytes :: more = seen ++ [segmentOf peer bytes] ++ more := by
          simp
        rw [if_pos ((fin_flag bytes).mpr last), if_pos last, if_pos last, shape]
        exact closes (acceptFin_sent _ _ tcp) (counts_fin counts carved inStep empty last) orderly
      · rw [if_neg fun flag => last ((fin_flag bytes).mp flag), if_neg last, if_neg last]
        exact ⟨counts_pure counts empty (by simpa using last), by simp, fun _ inside => .inl inside⟩

theorem netPolls_keeps (short : peer.stream.length + 1 < 2 ^ 32) :
    ∀ (arrivals : List Arrival) {seen : List Segment} {tcp : State}, Counts peer seen tcp → AllOrderly peer arrivals seen →
      Keeps peer tcp (seen ++ allSegments peer arrivals) (netPolls arrivals tcp) (allAcks peer arrivals seen tcp)
  | [], seen, tcp, counts, _ => by
    simp only [allSegments, append_nil, netPolls, allAcks]
    exact ⟨counts, by simp, fun _ inside => .inl inside⟩
  | arrival :: rest, seen, tcp, counts, orderly => by
    simp only [AllOrderly] at orderly
    simp only [netPolls, counts.listening, if_true, allSegments, allAcks, ← append_assoc]
    have here := onTcp_keeps short arrival counts orderly.1
    exact here.append (netPolls_keeps short rest here.counts orderly.2)

end

structure World where
  tcp : State
  seen : List Segment
  acks : List Ack

inductive Event where
  | deliver (arrival : Arrival)
  | program (rxData : List UInt8) (sndNxt : Nat)

inductive Step (peer : Peer) : World → Event → World → Prop where
  | deliver {world : World} {arrival : Arrival} (orderly : Orderly peer arrival world.seen) :
      Step peer world (.deliver arrival) ⟨onTcp arrival world.tcp, world.seen ++ segments peer arrival,
        world.acks ++ acksOf peer arrival world.seen world.tcp⟩
  | program {world : World} (rxData : List UInt8) (sndNxt : Nat) :
      Step peer world (.program rxData sndNxt) { world with tcp := { world.tcp with rxData, sndNxt } }

theorem Keeps.step (short : peer.stream.length + 1 < 2 ^ 32) {start : State} {before after : World} {event : Event}
    (keeps : Keeps peer start before.seen before.tcp before.acks) (moves : Step peer before event after) :
    Keeps peer start after.seen after.tcp after.acks := by
  cases moves with
  | deliver orderly => exact keeps.append (onTcp_keeps short _ keeps.counts orderly)
  | program rxData sndNxt =>
    exact ⟨⟨keeps.counts.phase, keeps.counts.remote, keeps.counts.listening, keeps.counts.next⟩, keeps.right, keeps.logged⟩

/-- In every run in which each segment is in step, every acknowledgement carries the first number
not received by then. -/
theorem acks_are_right (short : peer.stream.length + 1 < 2 ^ 32) (established : Established peer tcp)
    {events : List Event} {world : World} (run : Run (Step peer) ⟨tcp, [], []⟩ events world) :
    (∀ ack ∈ world.acks, be32 ack.bytes 8 = expected peer ack.received) ∧
      ∀ bytes ∈ world.tcp.sent, bytes ∈ tcp.sent ∨ ∃ ack ∈ world.acks, ack.bytes = bytes := by
  have counts : Counts peer [] tcp := by
    refine ⟨.inl established.phase, established.remote, established.listening, ?_⟩
    rw [established.next, expected_of_open (by simp [complete]), contiguous_nil, Nat.add_zero]
  have initial : Keeps peer tcp [] tcp [] := ⟨counts, by simp, fun _ inside => .inl inside⟩
  have keeps : Keeps peer tcp world.seen world.tcp world.acks :=
    @Run.preserves _ _ _ (fun world => Keeps peer tcp world.seen world.tcp world.acks)
      (fun _ _ _ keeps moves => keeps.step short moves) _ _ _ run initial
  exact ⟨keeps.right, keeps.logged⟩

def single (offset count flags : Nat) : Arrival := .mk shortPeer.ip (carve shortPeer offset count flags) [] true [] true

theorem acks_are_right_reordered : ∃ world,
    Run (Step shortPeer) ⟨shortConnection, [], []⟩
      [.deliver (single 1 1 0x10), .deliver (single 0 2 0x10), .deliver (single 2 0 0x11)] world ∧
    world.acks.map (fun ack => be32 ack.bytes 8) = [1000, 1002, 1003] ∧
    ∀ ack ∈ world.acks, be32 ack.bytes 8 = expected shortPeer ack.received := by
  have second : Orderly shortPeer (single 1 1 0x10) [] :=
    ⟨⟨rfl, by decide, by decide, by decide, by decide, by decide, by decide⟩, ⟨by decide, by decide, by decide⟩,
      fun _ => trivial, fun _ => trivial⟩
  have both : Orderly shortPeer (single 0 2 0x10) [⟨1, 1, false⟩] :=
    ⟨⟨rfl, by decide, by decide, by decide, by decide, by decide, by decide⟩, ⟨by decide, by decide, by decide⟩,
      fun _ => trivial, fun _ => trivial⟩
  have last : Orderly shortPeer (single 2 0 0x11) [⟨1, 1, false⟩, ⟨0, 2, false⟩] :=
    ⟨⟨rfl, by decide, by decide, by decide, by decide, by decide, by decide⟩, ⟨by decide, by decide, by decide⟩,
      fun _ => trivial, fun _ => trivial⟩
  have one : segments shortPeer (single 1 1 0x10) = [⟨1, 1, false⟩] := by decide +kernel
  have two : segments shortPeer (single 0 2 0x10) = [⟨0, 2, false⟩] := by decide +kernel
  have run := Run.next (@Step.deliver shortPeer ⟨shortConnection, [], []⟩ _ second)
    (.next (.deliver (by rw [one]; exact both)) (.next (.deliver (by rw [one, two]; exact last)) (.done _)))
  exact ⟨_, run, by decide +kernel, (acks_are_right (by decide) shortConnection_established run).1⟩

/-- The whole stream with its FIN in one segment is acknowledged twice, each time
without the FIN. -/
theorem fin_with_data_unacknowledged :
    (onTcp (single 0 2 0x11) shortConnection).sent.map (fun bytes => be32 bytes 8) = [1002, 1002] ∧
      expected shortPeer (segments shortPeer (single 0 2 0x11)) = 1003 := by
  constructor <;> decide +kernel

end GWKernel.Tcp.Acks
