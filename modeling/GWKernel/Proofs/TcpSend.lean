import GWKernel.Proofs.TcpHandshake

/-! Two machines that run tcp.c. While one sends with `tcp_send`, segments may come in at any
time, but on an open connection they cause nothing but acknowledgements. -/

namespace GWKernel.Tcp
open Lib List

variable {flags ack seq : Nat} {data bytes ip : List UInt8} {tcp before middle after receiver : State}
  {wait firstAck secondAck : State → State}

/-- The receiver is connected to the sender and expects what it will send next. -/
structure InStep (ip : List UInt8) (sender receiver : State) : Prop where
  phase : receiver.phase = .est
  remote : receiver.remoteIp = ip ∧ receiver.remotePort = sender.localPort % 65536 ∧
    receiver.localPort = sender.remotePort % 65536
  listening : receiver.listening = true
  next : receiver.rcvNxt = u32 sender.sndNxt
  fits : receiver.rxData.length ≤ rxDataSize

def arrive (ip segment : List UInt8) : Arrival := .mk ip segment [] true [] true

/-- What is sent in between brings `bytes` to the other end, as far as the buffer has room. -/
def Brings (ip : List UInt8) (before : State) (bytes : List UInt8) (after : State) : Prop :=
  ∃ segments, after.sent = before.sent ++ segments ∧ ∀ receiver, InStep ip before receiver →
    InStep ip after (netPolls (segments.map (arrive ip)) receiver) ∧
      (netPolls (segments.map (arrive ip)) receiver).rxData = (receiver.rxData ++ bytes).take rxDataSize

theorem take_take_append (count : Nat) (left right : List UInt8) :
    (left.take count ++ right).take count = (left ++ right).take count := by
  rw [take_append, take_append, take_take, Nat.min_self, length_take]
  rcases Nat.le_total count left.length with full | room
  · rw [Nat.min_eq_left full, Nat.sub_self, Nat.sub_eq_zero_of_le full]
  · rw [Nat.min_eq_right room]

theorem Brings.trans {more : List UInt8} (left : Brings ip before bytes middle) (right : Brings ip middle more after) :
    Brings ip before (bytes ++ more) after := by
  obtain ⟨segments, sent, brings⟩ := left
  obtain ⟨further, again, carries⟩ := right
  refine ⟨segments ++ further, by rw [again, sent, append_assoc], fun receiver inStep => ?_⟩
  obtain ⟨later, grown⟩ := brings receiver inStep
  obtain ⟨final, whole⟩ := carries _ later
  rw [map_append, netPolls_append]
  exact ⟨final, by rw [whole, grown, take_take_append, append_assoc]⟩

def wires (tcp : State) : Nat × Nat × Nat := (u32 tcp.sndNxt, tcp.localPort, tcp.remotePort)

theorem InStep.congr (same : wires after = wires before) (inStep : InStep ip before receiver) : InStep ip after receiver := by
  simp only [wires, Prod.mk.injEq] at same
  obtain ⟨number, source, target⟩ := same
  exact ⟨inStep.phase, by rw [source, target]; exact inStep.remote, inStep.listening, inStep.next.trans number.symm,
    inStep.fits⟩

theorem brings_nothing (same : wires after = wires before) (sent : after.sent = before.sent) : Brings ip before [] after := by
  refine ⟨[], by rw [sent, append_nil], fun receiver inStep => ?_⟩
  rw [map_nil, netPolls, append_nil, take_of_length_le inStep.fits]
  exact ⟨inStep.congr same, rfl⟩

theorem buildSegment_reads (tcp : State) (is : flags = 0x10 ∨ flags = 0x18) (data : List UInt8) (ack : Nat) :
    Carved ⟨ip, tcp.localPort % 65536, tcp.remotePort % 65536, u32 tcp.sndNxt, data⟩ 0 ip (buildSegment tcp flags data ack) ∧
      payloadOf (buildSegment tcp flags data ack) = data ∧ byteAt (buildSegment tcp flags data ack) 13 &&& 0x01 = 0 := by
  have payload : payloadOf (buildSegment tcp flags data ack) = data := by
    simp [payloadOf, doffOf, byteAt, buildSegment, toBe16, toBe32]
  refine ⟨⟨rfl, ?_, ?_, ?_, ?_, ?_, fun _ => by rw [payload, Nat.zero_add]⟩, payload, ?_⟩
  · simp only [be16, byteAt, buildSegment, toBe16, toBe32, cons_append, nil_append, getD_cons_succ, getD_cons_zero,
      UInt8.toNat_ofNat']
    omega
  · simp [doffOf, byteAt, buildSegment, toBe16, toBe32]
  · simp only [be32, be16, byteAt, buildSegment, toBe16, toBe32, u32, cons_append, nil_append, getD_cons_succ,
      getD_cons_zero, UInt8.toNat_ofNat']
    omega
  · rw [payload, Nat.zero_add]
  · rw [payload, drop_zero, take_length]
  · rcases is with rfl | rfl <;> simp [byteAt, buildSegment, toBe16, toBe32]

theorem InStep.onTcp (inStep : InStep ip tcp receiver) (is : flags = 0x10 ∨ flags = 0x18) (data : List UInt8)
    (ack : Nat) : ∃ sent, onTcp (arrive ip (buildSegment tcp flags data ack)) receiver = { receiver with
      rxData := (receiver.rxData ++ data).take rxDataSize
      rcvNxt := u32 (tcp.sndNxt + data.length)
      sent } := by
  obtain ⟨carved, payload, last⟩ := @buildSegment_reads flags ip tcp is data ack
  have number := carved.seq
  have next := inStep.next
  rw [arrive, onTcp_carved (.inl inStep.phase) inStep.remote carved, payload, onEstablished, if_neg (by simp [last])]
  rw [show u32 (u32 tcp.sndNxt + 0) = receiver.rcvNxt by rw [next]; unfold u32; omega] at number
  split
  · obtain ⟨sent, acked⟩ := sendAck_eq (netPolls []) true (acceptData receiver.rcvNxt data receiver)
    rw [number, acked, netPolls, acceptData, if_pos rfl]
    have copied : receiver.rxData ++ data.take (if data.length < rxDataSize - receiver.rxData.length then data.length
        else rxDataSize - receiver.rxData.length) = (receiver.rxData ++ data).take rxDataSize := by
      rw [take_append, take_of_length_le inStep.fits]
      split
      · rw [take_length, take_of_length_le (by omega)]
      · rfl
    have moved : u32 (receiver.rcvNxt + data.length) = u32 (tcp.sndNxt + data.length) := by
      rw [next]
      unfold u32
      omega
    refine ⟨sent, ?_⟩
    dsimp only
    rw [copied, moved]
  next empty =>
    obtain rfl := length_eq_zero_iff.mp (Nat.eq_zero_of_not_pos empty)
    refine ⟨receiver.sent, ?_⟩
    rw [append_nil, take_of_length_le inStep.fits, length_nil, Nat.add_zero, ← next]

theorem brings_segment (is : flags = 0x10 ∨ flags = 0x18) (same : wires before = wires tcp)
    (sent : after.sent = before.sent ++ [buildSegment tcp flags data ack])
    (moved : wires after = (u32 (before.sndNxt + data.length), before.localPort, before.remotePort)) :
    Brings ip before data after := by
  refine ⟨[_], sent, fun receiver inStep => ?_⟩
  obtain ⟨acks, received⟩ := (inStep.congr same.symm).onTcp is data ack
  simp only [wires, Prod.mk.injEq] at same moved
  simp only [map_cons, map_nil, netPolls, inStep.listening, if_true]
  rw [received]
  refine ⟨⟨inStep.phase, ?_, inStep.listening, ?_, ?_⟩, rfl⟩
  · dsimp only
    rw [moved.2.1, moved.2.2]
    exact inStep.remote
  · dsimp only
    rw [moved.1]
    unfold u32 at same ⊢
    omega
  · rw [length_take]
    exact Nat.min_le_left _ _

/-- What segments do to an open connection. -/
structure Acknowledges (before after : State) : Prop where
  connected : tcpIsConnected after = true
  same : wires after = wires before
  brings : ∀ ip, Brings ip before [] after

theorem Acknowledges.of (connected : tcpIsConnected after = true) (same : wires after = wires before)
    (sent : after.sent = before.sent) : Acknowledges before after :=
  ⟨connected, same, fun _ => brings_nothing same sent⟩

theorem Acknowledges.trans (left : Acknowledges before middle) (right : Acknowledges middle after) :
    Acknowledges before after :=
  ⟨right.connected, right.same.trans left.same, fun ip => (left.brings ip).trans (right.brings ip)⟩

theorem acknowledges_sendAck (polled : Acknowledges tcp (wait tcp)) (delivered : Bool) :
    Acknowledges tcp (sendAck wait delivered tcp) := by
  unfold sendAck sendSegment
  simp only [length_nil, Nat.add_zero, show ¬1400 < 20 by omega, if_false]
  split
  · refine polled.trans ⟨polled.connected, rfl, fun ip => brings_segment (.inl rfl) polled.same rfl rfl⟩
  · exact polled

theorem acknowledges_onEstablished (connected : tcpIsConnected tcp = true) (seq : Nat) (payload : List UInt8)
    (flags : Nat) (first : ∀ tcp, tcpIsConnected tcp = true → Acknowledges tcp (firstAck tcp))
    (second : ∀ tcp, tcpIsConnected tcp = true → Acknowledges tcp (secondAck tcp)) :
    Acknowledges tcp (onEstablished seq payload flags firstAck secondAck tcp) := by
  have data : Acknowledges tcp (if 0 < payload.length then firstAck (acceptData seq payload tcp) else tcp) := by
    split
    · have taken : Acknowledges tcp (acceptData seq payload tcp) := by
        unfold acceptData
        split <;> exact .of connected rfl rfl
      exact taken.trans (first _ taken.connected)
    · exact .of connected rfl rfl
  unfold onEstablished
  generalize (if 0 < payload.length then firstAck (acceptData seq payload tcp) else tcp) = middle at data ⊢
  dsimp only
  split
  · have fin : Acknowledges middle (acceptFin seq payload.length middle) := by
      unfold acceptFin
      split
      · exact .of data.connected rfl rfl
      · split <;> exact .of data.connected rfl rfl
    exact (data.trans (fin.trans (second _ fin.connected))).trans (.of rfl rfl rfl)
  · exact data

mutual

theorem acknowledges_onTcp : ∀ (arrival : Arrival) (tcp : State), tcpIsConnected tcp = true →
    Acknowledges tcp (onTcp arrival tcp)
  | .mk srcIp bytes first firstDelivered second secondDelivered, tcp, connected => by
    have same : Acknowledges tcp tcp := .of connected rfl rfl
    unfold onTcp
    split
    · exact same
    split
    · exact same
    split
    · exact same
    dsimp only
    split
    · exact same
    split
    next opening => simp [tcpIsConnected, opening] at connected
    next => exact same
    all_goals
      split
      · exact same
      · exact acknowledges_onEstablished connected _ _ _
          (fun current still => acknowledges_sendAck (acknowledges_netPolls first current still) firstDelivered)
          fun current still => acknowledges_sendAck (acknowledges_netPolls second current still) secondDelivered

theorem acknowledges_netPolls : ∀ (arrivals : List Arrival) (tcp : State), tcpIsConnected tcp = true →
    Acknowledges tcp (netPolls arrivals tcp)
  | [], tcp, connected => by
    simp only [netPolls]
    exact .of connected rfl rfl
  | arrival :: rest, tcp, connected => by
    have first : Acknowledges tcp (if tcp.listening then onTcp arrival tcp else tcp) := by
      split
      · exact acknowledges_onTcp arrival tcp connected
      · exact .of connected rfl rfl
    simp only [netPolls]
    exact first.trans (acknowledges_netPolls rest _ first.connected)

end

theorem sendChunks_brings (exchanges : List Exchange) (connected : tcpIsConnected tcp = true)
    (enough : data.length ≤ 800 * exchanges.length) :
    ∃ bytes, Brings ip tcp bytes (sendChunks exchanges data tcp).2 ∧ bytes <+: data ∧
      ((sendChunks exchanges data tcp).1 = true → bytes = data) := by
  induction exchanges generalizing data tcp with
  | nil =>
    obtain rfl := eq_nil_of_length_eq_zero (Nat.le_zero.mp enough)
    exact ⟨[], brings_nothing rfl rfl, nil_prefix, fun _ => rfl⟩
  | cons exchange exchanges ih =>
    rw [sendChunks]
    split
    next empty => exact ⟨[], brings_nothing rfl rfl, nil_prefix, fun _ => empty.symm⟩
    have polled := acknowledges_netPolls exchange.wait tcp connected
    have short : ¬1400 < 20 + (data.take 800).length := by
      rw [length_take]
      omega
    simp only [sendSegment, short, if_false]
    generalize netPolls exchange.wait tcp = waited at polled
    cases exchange.delivered with
    | false => exact ⟨[], polled.brings ip, nil_prefix, fun no => by cases no⟩
    | true =>
      simp only [if_true]
      generalize moved : ({ waited with
        sndNxt := u32 (waited.sndNxt + (data.take 800).length)
        sent := waited.sent ++ [buildSegment tcp 0x18 (data.take 800) tcp.rcvNxt] } : State) = out
      have sends : Brings ip waited (data.take 800) out := by
        rw [← moved]
        exact brings_segment (.inr rfl) polled.same rfl (by simp [wires, u32])
      have settled : Acknowledges out (settle 5 exchange.polls out) := by
        rw [settle, settle_eq]
        exact acknowledges_netPolls _ _ (by rw [← moved]; exact polled.connected)
      rw [length_cons] at enough
      obtain ⟨bytes, brings, within, whole⟩ := ih settled.connected
        (show (data.drop 800).length ≤ _ by rw [length_drop]; omega)
      have together := take_append_drop 800 data
      refine ⟨data.take 800 ++ bytes, ((polled.brings ip).trans sends).trans ((settled.brings ip).trans brings), ?_, fun ok => ?_⟩
      · conv_rhs => rw [← together]
        exact (prefix_append_right_inj _).mpr within
      · rw [whole ok, together]

/-- Whatever comes in meanwhile, the segments of `tcp_send` bring the data in order and without
a gap to a machine with the same code: all of it if it returns 0, and a beginning of it
otherwise, as far as the buffer there has room. -/
theorem tcpSend_received (network : Nat → Exchange) (data : List UInt8) (inStep : InStep ip tcp receiver) :
    ∃ segments bytes, (tcpSend network data tcp).2.sent = tcp.sent ++ segments ∧
      InStep ip (tcpSend network data tcp).2 (netPolls (segments.map (arrive ip)) receiver) ∧
      (netPolls (segments.map (arrive ip)) receiver).rxData = (receiver.rxData ++ bytes).take rxDataSize ∧
      bytes <+: data ∧ ((tcpSend network data tcp).1 = true → bytes = data) := by
  have brings : ∃ bytes, Brings ip tcp bytes (tcpSend network data tcp).2 ∧ bytes <+: data ∧
      ((tcpSend network data tcp).1 = true → bytes = data) := by
    unfold tcpSend
    split
    next => exact ⟨[], brings_nothing rfl rfl, nil_prefix, fun no => by cases no⟩
    next established =>
      refine sendChunks_brings _ (by simp_all [tcpIsConnected]) ?_
      rw [length_map, length_range]
      omega
  obtain ⟨bytes, ⟨segments, sent, carries⟩, within, whole⟩ := brings
  exact ⟨segments, bytes, sent, (carries receiver inStep).1, (carries receiver inStep).2, within, whole⟩

theorem tcpSend_received_short : ∃ segments, (tcpSend (fun _ => quiet) [7, 9] shortConnection).2.sent = segments ∧
    (netPolls (segments.map (arrive [10, 0, 2, 15]))
      ⟨.est, [10, 0, 2, 15], 80, 42000, 1000, 500, [5], true, false, 0, 42001, true, []⟩).rxData = [5, 7, 9] := by
  have ok : (tcpSend (fun _ => quiet) [7, 9] shortConnection).1 = true := by decide +kernel
  have inStep : InStep [10, 0, 2, 15] shortConnection
      ⟨.est, [10, 0, 2, 15], 80, 42000, 1000, 500, [5], true, false, 0, 42001, true, []⟩ :=
    ⟨rfl, ⟨rfl, rfl, rfl⟩, rfl, rfl, by decide⟩
  obtain ⟨segments, bytes, sent, _, received, _, whole⟩ := tcpSend_received (fun _ => quiet) [7, 9] inStep
  rw [whole ok] at received
  exact ⟨segments, sent, received⟩

end GWKernel.Tcp
