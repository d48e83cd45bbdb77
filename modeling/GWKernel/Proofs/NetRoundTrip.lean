import GWKernel.Proofs.NetInvariant

/-! Decoding undoes encoding: `handle_ip` and the receivers take a sent frame apart into the ports
and bytes it was made of. A payload that is too long is refused only after the address has been
asked for. -/

namespace GWKernel.Net
open Lib Option

variable {frames : Nat} {stem : List (List UInt8)} {poll : Code Unit} {dst payload : List UInt8} {proto : Nat}

def Sent (proto : Nat) (dst payload : List UInt8) (after : Stack) : Prop :=
  20 + payload.length ≤ ippktSize ∧ ∃ earlier frame, after.sent = earlier ++ [frame] ∧ Datagram frame proto dst payload

variable {stack : Stack} {frame : List UInt8}

theorem transmit_sends {mac : List UInt8} (ready : Ready frames stem stack) (mac6 : mac.length = 6)
    (dst4 : dst.length = 4) (small : proto < 256) :
    Ends True (transmit mac dst proto payload) stack fun ok after => ok = true → Sent proto dst payload after := by
  unfold transmit
  refine Ends.branch (fun _ => Ends.pure fun refused => by cases refused) fun short => ?_
  have inside : 20 + payload.length ≤ ippktSize := by omega
  have whole : 14 + (ipHeader (20 + payload.length) ((stack.ipId + 1) % 2 ^ 16) proto dst ++ payload).length ≤ frameSize := by
    rw [List.length_append, ipHeader_length _ _ _ dst4]
    simp only [ippktSize, frameSize] at inside ⊢
    omega
  rw [fits_then inside]
  refine Ends.modify_then (Ends.get_then ?_)
  unfold ethSend
  rw [fits_then whole]
  refine Ends.modify_then (Ends.pure fun _ => ⟨inside, stack.sent, _, rfl, ?_⟩)
  exact ethFrame_datagram _ mac6 ready.mac dst4 small inside

theorem netIpv4Send_sends (polls : Stays (Ready frames stem) poll) {stack : Stack} (ready : Ready frames stem stack)
    (dst4 : dst.length = 4) (small : proto < 256) :
    Ends True (netIpv4Send poll dst proto payload) stack fun ok after => ok = true → Sent proto dst payload after := by
  refine Ends.get_then (Ends.branch (fun _ => Ends.pure fun refused => by cases refused) fun _ =>
    Ends.branch (fun _ => transmit_sends ready ready.arpMac dst4 small) fun _ => ?_)
  refine (arpXmit_stays dst4 (by simp) stack ready).bind fun _ asked kept => ?_
  refine (awaitArp_ends polls dst 30 kept).bind fun found between waited => ?_
  obtain ⟨kept, six⟩ := waited
  cases found with
  | some mac => exact transmit_sends kept (six mac rfl) dst4 small
  | none =>
    refine Ends.get_then (Ends.branch (fun _ => ?_) fun _ => Ends.pure fun refused => by cases refused)
    exact transmit_sends kept kept.gwMac dst4 small

theorem transmit_long (mac : List UInt8) (long : ippktSize < 20 + payload.length) :
    transmit mac dst proto payload = pure false := if_pos long

theorem ethSend_sent {ethertype : Nat} {after : Stack} {value : Unit}
    (ran : ethSend dst ethertype payload stack = some (value, after)) :
    after.sent.length = stack.sent.length + 1 := by
  unfold ethSend at ran
  obtain ⟨⟨_, between⟩, fitted, ended⟩ := bind_eq_some_iff.mp ran
  obtain ⟨_, _, same⟩ := map_eq_some_iff.mp fitted
  cases same
  cases ended
  simp

/-- The request for an address is sent first, so a payload that is too long is refused with a
frame sent. -/
theorem resolveAndSend_long (polls : ∀ stem, Stays (Ready frames stem) poll) (ready : Ready frames stem stack)
    (dst4 : dst.length = 4) (long : ippktSize < 20 + payload.length) :
    Ends True (resolveAndSend poll dst proto payload) stack fun ok after =>
      ok = false ∧ stack.sent.length < after.sent.length := by
  have asks : ∀ (value : Unit) (after : Stack), arpXmit dst none stack = some (value, after) →
      after.sent.length = stack.sent.length + 1 := fun value after ran => ethSend_sent ran
  refine ((arpXmit_stays dst4 (by simp) stack ready).and asks).bind fun _ asked sent => ?_
  have kept : Ready frames asked.sent asked := { sent.1 with grows := List.prefix_refl _ }
  refine (awaitArp_ends (polls asked.sent) dst 30 kept).bind fun found between waited => ?_
  have more : stack.sent.length < between.sent.length := by
    have := waited.1.grows.length_le
    omega
  cases found with
  | some mac =>
    dsimp only
    rw [transmit_long mac long]
    exact Ends.pure ⟨rfl, more⟩
  | none =>
    refine Ends.get_then (Ends.branch (fun _ => ?_) fun _ => Ends.pure ⟨rfl, more⟩)
    rw [transmit_long _ long]
    exact Ends.pure ⟨rfl, more⟩

/-- A payload that is too long is refused, without a frame exactly when the network is down or the
ARP entry is the one needed. -/
theorem netIpv4Send_long (polls : ∀ stem, Stays (Ready frames stem) poll) {stack : Stack}
    (ready : Ready frames stem stack) (dst4 : dst.length = 4) (long : ippktSize < 20 + payload.length) :
    Ends True (netIpv4Send poll dst proto payload) stack fun ok after => ok = false ∧
      (after.sent = stack.sent ↔ stack.netUp = false ∨ stack.arpHave = true ∧ stack.arpIp = dst) := by
  refine Ends.get_then (Ends.branch (fun down => Ends.pure ⟨rfl, by simp [down]⟩) fun up =>
    Ends.branch (fun known => ?_) fun unknown => ?_)
  · rw [transmit_long _ long]
    exact Ends.pure ⟨rfl, by simp [known]⟩
  · refine (resolveAndSend_long polls ready dst4 long).imp fun ok after refused => ⟨refused.1, ?_⟩
    constructor
    · intro same
      have more := refused.2
      rw [same] at more
      omega
    · rintro (down | known)
      · exact absurd down up
      · exact absurd known unknown

theorem handleIp_datagram (datagram : Datagram frame proto dst payload) :
    handleIp poll frame = dispatch poll frame 20 (20 + payload.length) := by
  have long := datagram.long
  have total := datagram.total
  have version := datagram.version
  unfold handleIp
  rw [if_neg (by omega), readByte_inside (by omega), readBe16_inside (by omega), version, total]
  simp only [access_then]
  rw [if_neg (by omega), if_neg (by omega), if_neg (by omega), if_neg (by omega)]

theorem dispatch_reads (datagram : Datagram frame proto dst payload) :
    readByte frame 23 = some proto ∧ readSlice frame 26 4 = some Tcp.netIpAddr ∧
      readSlice frame (14 + 20) (20 + payload.length - 20) = some payload := by
  have long := datagram.long
  refine ⟨?_, ?_, ?_⟩
  · rw [readByte_inside (by omega), datagram.proto]
  · rw [readSlice_inside (by omega), datagram.src]
  · rw [Nat.add_sub_cancel_left, readSlice_inside (by omega), datagram.body]

theorem handleIp_tcp (datagram : Datagram frame 6 dst payload) (poll : Code Unit) {receiver : Stack}
    (listening : receiver.tcp.listening = true) :
    handleIp poll frame receiver = onTcp poll Tcp.netIpAddr payload receiver := by
  obtain ⟨kind, src, body⟩ := dispatch_reads datagram
  rw [handleIp_datagram datagram, dispatch, kind, src, body]
  simp only [access_then]
  change (if receiver.tcp.listening then onTcp poll Tcp.netIpAddr payload else pure ()) receiver = _
  rw [if_pos listening]

theorem handleIp_udp (datagram : Datagram frame 17 dst payload) (poll : Code Unit) {receiver : Stack}
    (listening : receiver.udp.listening = true) :
    handleIp poll frame receiver = onUdp Tcp.netIpAddr payload receiver := by
  obtain ⟨kind, src, body⟩ := dispatch_reads datagram
  rw [handleIp_datagram datagram, dispatch, kind, src, body]
  simp only [access_then]
  change (if receiver.udp.listening then onUdp Tcp.netIpAddr payload else pure ()) receiver = _
  rw [if_pos listening]

def recorded (srcPort dstPort : Nat) (data : List UInt8) (udp : Udp.State) : Udp.State :=
  { udp with rxBuf := data, rxSrcIp := Tcp.netIpAddr, rxSrcPort := srcPort, rxDstPort := dstPort, rxHave := true }

theorem packet_length (dstPort srcPort : Nat) (data : List UInt8) :
    (Udp.packet dstPort srcPort data).length = 8 + data.length := by
  simp only [Udp.packet, toBe16, List.length_append, List.length_cons, List.length_nil]

theorem onUdp_packet {srcPort dstPort : Nat} {data : List UInt8} (src16 : srcPort < 65536) (dst16 : dstPort < 65536)
    (short : data.length ≤ 1472) (receiver : Stack) :
    onUdp Tcp.netIpAddr (Udp.packet dstPort srcPort data) receiver =
      some ((), { receiver with udp := recorded srcPort dstPort data receiver.udp }) := by
  have length := packet_length dstPort srcPort data
  have source : be16 (Udp.packet dstPort srcPort data) 0 = srcPort := by
    simp only [Udp.packet, List.append_assoc]
    exact be16_toBe16 src16 _
  have target : be16 (Udp.packet dstPort srcPort data) 2 = dstPort := be16_toBe16 dst16 []
  have size : be16 (Udp.packet dstPort srcPort data) 4 = 8 + data.length := be16_toBe16 (by omega) []
  have bytes : (Udp.packet dstPort srcPort data).drop 8 = data := rfl
  have all : Udp.copied (8 + data.length) (8 + data.length) = data.length := by
    have plain : u64 (2 ^ 64 + (8 + data.length) - 8) = data.length := by
      unfold u64
      omega
    have room : ¬Udp.rxBufSize < data.length := Nat.not_lt.mpr (Nat.le_trans short (by decide))
    have whole : ¬(8 + data.length < 8 ∨ 8 + data.length < 8 + data.length) := by omega
    dsimp only [Udp.copied]
    rw [if_neg whole, plain, if_neg room]
  have records := @Udp.onUdp_eq Tcp.netIpAddr (Udp.packet dstPort srcPort data) receiver.udp rfl (by omega)
  rw [source, target, size, bytes, length, all, List.take_length] at records
  change (access (Udp.onUdp Tcp.netIpAddr (Udp.packet dstPort srcPort data) receiver.udp) >>= fun udp =>
    modify fun stack => { stack with udp }) receiver = _
  rw [records]
  rfl

/-- The frame that a send ends with, given to `handle_ip`, does to every receiver what `effect` says. -/
def Decoded (after : Stack) (effect : Code Unit → Stack → Option (Unit × Stack)) (ready : Stack → Prop) : Prop :=
  ∃ earlier frame, after.sent = earlier ++ [frame] ∧
    ∀ poll receiver, ready receiver → handleIp poll frame receiver = effect poll receiver

/-- Decoding undoes encoding for every payload that fits; a longer one is refused without a frame
exactly when no address has to be asked for. -/
theorem decode_undoes_encode {stack : Stack} (reached : Reachable stack) (dst : Address 4) {fuel : Nat}
    (enough : stack.incoming.length < fuel) :
    (∀ dstPort srcPort data, dstPort < 65536 → srcPort < 65536 → data.length ≤ 1472 →
      ∃ ok after, udpSend (netPoll fuel) dst dstPort srcPort data stack = some (ok, after) ∧
        (ok = true → Decoded after
          (fun _ receiver => some ((), { receiver with udp := recorded srcPort dstPort data receiver.udp }))
          (fun receiver => receiver.udp.listening = true))) ∧
    ∀ payload,
      (∃ ok after, netIpv4Send (netPoll fuel) dst 6 payload stack = some (ok, after) ∧
        (payload.length ≤ 1480 → ok = true →
          Decoded after (fun poll => onTcp poll Tcp.netIpAddr payload) (fun receiver => receiver.tcp.listening = true)) ∧
        (1480 < payload.length → ok = false ∧ after.sent = stack.sent)) ↔
      (1480 < payload.length → stack.netUp = false ∨ stack.arpHave = true ∧ stack.arpIp = dst) := by
  have ready : Ready stack.incoming.length [] stack := reached.bounded
  have polls (stem : List (List UInt8)) : Stays (Ready stack.incoming.length stem) (netPoll fuel) := netPoll_stays enough
  refine ⟨fun dstPort srcPort data dst16 src16 short => ?_, fun payload => ?_⟩
  · obtain ⟨ok, after, ran, sent⟩ := (@netIpv4Send_sends _ _ _ _ (Udp.packet dstPort srcPort data) 17 (polls []) stack ready
      dst.property (by omega)).returns trivial
    have call : udpSend (netPoll fuel) dst dstPort srcPort data stack = some (ok, after) := by
      rw [udpSend, if_neg (by omega)]
      exact ran
    refine ⟨ok, after, call, fun succeeded => ?_⟩
    obtain ⟨_, earlier, frame, last, datagram⟩ := sent succeeded
    refine ⟨earlier, frame, last, fun poll receiver listening => ?_⟩
    rw [handleIp_udp datagram poll listening, onUdp_packet src16 dst16 short]
  · by_cases long : 1480 < payload.length
    · have tooLong : ippktSize < 20 + payload.length := by
        simp only [ippktSize]
        omega
      obtain ⟨ok, after, ran, refused, silent⟩ :=
        (@netIpv4Send_long _ _ _ _ payload 6 polls stack ready dst.property tooLong).returns trivial
      constructor
      · rintro ⟨ok', after', ran', _, holds⟩ _
        obtain ⟨rfl, rfl⟩ := Prod.mk.inj (Option.some.inj (ran.symm.trans ran'))
        exact silent.mp (holds long).2
      · intro condition
        exact ⟨ok, after, ran, fun short => absurd long (by omega), fun _ => ⟨refused, silent.mpr (condition long)⟩⟩
    · refine iff_of_true ?_ fun other => absurd other long
      obtain ⟨ok, after, ran, sent⟩ :=
        (@netIpv4Send_sends _ _ _ _ payload 6 (polls []) stack ready dst.property (by omega)).returns trivial
      refine ⟨ok, after, ran, fun _ succeeded => ?_, fun other => absurd other long⟩
      obtain ⟨_, earlier, frame, last, datagram⟩ := sent succeeded
      exact ⟨earlier, frame, last, fun poll receiver listening => handleIp_tcp datagram poll listening⟩

def cardUp : List Event := [.call (.netInit (some ⟨[0x52, 0x54, 0, 0x12, 0x34, 0x56], rfl⟩))]

/-- The card is up, and the host 10.0.2.3 has answered an ARP request. -/
def hostKnown : List Event := cardUp ++
  [.arrives (List.replicate 12 0 ++ [8, 6, 0, 1, 8, 0, 6, 4, 0, 2, 2, 0, 0, 0, 0, 3, 10, 0, 2, 3] ++ List.replicate 10 0),
    .call .netPoll]

/-- A short datagram, padded on the way, and a TCP payload of the largest size. -/
theorem decode_undoes_encode_known : ∃ stack, Reachable stack ∧
    (∃ after, udpSend (netPoll 1) [10, 0, 2, 3] 53 53053 [1, 2, 3, 4, 5] stack = some (true, after) ∧
      Decoded after
        (fun _ receiver => some ((), { receiver with udp := recorded 53053 53 [1, 2, 3, 4, 5] receiver.udp }))
        (fun receiver => receiver.udp.listening = true)) ∧
    ∃ after, netIpv4Send (netPoll 1) [10, 0, 2, 3] 6 (List.replicate 1480 7) stack = some (true, after) ∧
      Decoded after (fun poll => onTcp poll Tcp.netIpAddr (List.replicate 1480 7))
        (fun receiver => receiver.tcp.listening = true) := by
  have ran : ((hostKnown.foldlM step initialStack).map fun stack => (stack.incoming.length,
      (udpSend (netPoll 1) [10, 0, 2, 3] 53 53053 [1, 2, 3, 4, 5] stack).map Prod.fst,
      (netIpv4Send (netPoll 1) [10, 0, 2, 3] 6 (List.replicate 1480 7) stack).map Prod.fst)) =
        some (0, some true, some true) := by decide +kernel
  obtain ⟨stack, reached, facts⟩ := map_eq_some_iff.mp ran
  simp only [Prod.mk.injEq] at facts
  obtain ⟨empty, datagram, segment⟩ := facts
  obtain ⟨udp, tcp⟩ := @decode_undoes_encode stack ⟨_, reached⟩ ⟨[10, 0, 2, 3], rfl⟩ 1 (by omega)
  refine ⟨stack, ⟨_, reached⟩, ?_, ?_⟩
  · obtain ⟨ok, after, sent, decoded⟩ := udp 53 53053 [1, 2, 3, 4, 5] (by omega) (by omega) (by decide)
    rw [sent] at datagram
    cases datagram
    exact ⟨after, sent, decoded rfl⟩
  · obtain ⟨ok, after, sent, decoded, _⟩ := (tcp (List.replicate 1480 7)).mpr fun long =>
      absurd (Nat.le_of_eq List.length_replicate) (Nat.not_le_of_lt long)
    rw [sent] at segment
    cases segment
    exact ⟨after, sent, decoded (Nat.le_of_eq List.length_replicate) rfl⟩

/-- A payload of 1481 bytes is refused, but an ARP request has gone out by then. -/
theorem refused_after_request : ∃ stack after, Reachable stack ∧
    netIpv4Send (netPoll 1) [10, 0, 2, 100] 6 (List.replicate 1481 0) stack = some (false, after) ∧
    after.sent.length = stack.sent.length + 1 := by
  have ran : ((cardUp.foldlM step initialStack).bind fun stack =>
      ((netIpv4Send (netPoll 1) [10, 0, 2, 100] 6 (List.replicate 1481 0) stack).bind fun outcome =>
        if outcome.1 = false ∧ outcome.2.sent.length = stack.sent.length + 1 then some () else none)) = some () := by
    decide +kernel
  obtain ⟨stack, reached, ran⟩ := bind_eq_some_iff.mp ran
  obtain ⟨⟨ok, after⟩, sent, ran⟩ := bind_eq_some_iff.mp ran
  obtain ⟨⟨refused, count⟩, _⟩ := ite_none_right_eq_some.mp ran
  cases refused
  exact ⟨stack, after, ⟨_, reached⟩, sent, count⟩

end GWKernel.Net
