import GWKernel.NetCalls
import GWKernel.Lib.Outcome
import GWKernel.Lib.Run
import GWKernel.Proofs.Checksums
import GWKernel.Proofs.DnsOrigin

/-! One invariant of the network stack, kept by every call: each access of the receive path is
inside its buffer by the checks made on the way to it, and every frame handed to the card verifies
at its receiver. -/

namespace GWKernel.Net
open Lib List

variable {α β : Type} {invariant : Stack → Prop}

theorem access_then (value : α) (rest : α → Code β) : (access (some value) >>= rest) = rest value := rfl

theorem fits_then {count size : Nat} (inside : count ≤ size) (rest : PUnit → Code β) :
    (fits count size >>= rest) = rest ⟨⟩ := by
  have granted : (guard (count ≤ size) : Option Unit) = some () := if_pos inside
  rw [fits, granted]
  exact access_then () rest

/-- Addresses have their length, the buffers are not over-full, the frames sent begin with `stem`
and verify, and the card has at most `frames` frames. -/
structure Ready (frames : Nat) (stem : List (List UInt8)) (stack : Stack) : Prop where
  mac : stack.mac.length = 6
  gwMac : stack.gwMac.length = 6
  arpMac : stack.arpMac.length = 6
  remoteIp : stack.tcp.remoteIp.length = 4
  rxData : stack.tcp.rxData.length ≤ Tcp.rxDataSize
  rxBuf : stack.udp.rxBuf.length ≤ Udp.rxBufSize
  sent : ∀ frame ∈ stack.sent, Verified frame
  grows : stem <+: stack.sent
  incoming : stack.incoming.length ≤ frames

variable {frames : Nat} {stem : List (List UInt8)} {poll : Code Unit}

theorem changeTcp_stays {change : Tcp.State → Tcp.State}
    (kept : ∀ stack, Ready frames stem stack → (change stack.tcp).remoteIp.length = 4 ∧
      (change stack.tcp).rxData.length ≤ Tcp.rxDataSize) :
    Stays (Ready frames stem) (changeTcp change) :=
  .modify fun stack ready => { ready with remoteIp := (kept stack ready).1, rxData := (kept stack ready).2 }

variable {dst payload : List UInt8} {stack : Stack} {bytes : List UInt8}

theorem ethSend_stays {ethertype : Nat} (inside : 14 + payload.length ≤ frameSize)
    (verified : ∀ mac, mac.length = 6 → Verified (ethFrame dst mac ethertype payload)) :
    Stays (Ready frames stem) (ethSend dst ethertype payload) := by
  unfold ethSend
  rw [fits_then inside]
  refine .modify fun stack ready =>
    { ready with sent := fun frame added => ?_, grows := ready.grows.trans (prefix_append _ _) }
  rcases mem_append.mp added with earlier | last
  · exact ready.sent frame earlier
  · obtain rfl := mem_singleton.mp last
    exact verified stack.mac ready.mac

theorem arpXmit_stays {tip : List UInt8} {tmac : Option (List UInt8)} (tip4 : tip.length = 4)
    (tmac6 : ∀ bytes ∈ tmac, bytes.length = 6) : Stays (Ready frames stem) (arpXmit tip tmac) := by
  intro stack ready
  have target (other : List UInt8) (six : other.length = 6) : (tmac.getD other).length = 6 := by
    cases tmac with
    | none => exact six
    | some bytes => exact tmac6 bytes rfl
  have source : Tcp.netIpAddr.length = 4 := rfl
  refine Ends.get_then ?_
  apply ethSend_stays ?_ ?_ stack ready
  · simp only [length_append, length_cons, length_nil, ready.mac, source,
      target [0, 0, 0, 0, 0, 0] rfl, tip4, frameSize]
    omega
  · intro mac mac6 kind
    obtain ⟨padding, shape⟩ := ethFrame_eq (tmac.getD broadcast) mac 0x0806 ([0, 1, 8, 0, 6, 4, 0,
      if tmac.isNone then 1 else 2] ++ stack.mac ++ Tcp.netIpAddr ++ tmac.getD [0, 0, 0, 0, 0, 0] ++ tip)
    have addresses : (tmac.getD broadcast ++ mac).length = 12 := by rw [length_append, target _ rfl, mac6]
    rw [shape, append_assoc (toBe16 0x0806)] at kind
    have arp := (be16_append addresses _ 0).symm.trans kind
    rw [be16_toBe16 (by omega)] at arp
    omega

theorem transmit_stays {mac : List UInt8} {proto : Nat} (mac6 : mac.length = 6) (dst4 : dst.length = 4)
    (small : proto < 256) (checked : Checked proto dst payload) :
    Stays (Ready frames stem) (transmit mac dst proto payload) := by
  unfold transmit
  refine .branch (fun _ => .pure _) fun short => ?_
  have inside : 20 + payload.length ≤ ippktSize := by omega
  rw [fits_then inside]
  refine .bind (.modify fun _ ready => { ready with }) fun _ => .get_then fun stack => .bind ?_ fun _ => .pure _
  apply ethSend_stays
  · rw [length_append, ipHeader_length _ _ _ dst4]
    simp only [ippktSize, frameSize] at inside ⊢
    omega
  · intro own own6
    exact (ethFrame_datagram _ mac6 own6 dst4 small inside).verified checked

theorem segment_checked (tcp : Tcp.State) (flags : Nat) {data : List UInt8} (ack : Nat)
    (ip4 : tcp.remoteIp.length = 4) (short : 20 + data.length ≤ 1400) :
    Checked 6 tcp.remoteIp (Tcp.buildSegment tcp flags data ack) :=
  ⟨fun other => by omega, fun _ => buildSegment_verifies tcp flags ack ip4 short⟩

theorem slice_length {index count : Nat} (inside : index + count ≤ bytes.length) :
    ((bytes.drop index).take count).length = count := by
  rw [length_take, length_drop]
  omega

theorem handleArp_stays (pkt : List UInt8) : Stays (Ready frames stem) (handleArp pkt) := by
  unfold handleArp
  refine .branch (fun _ => .pure ()) fun long => ?_
  rw [readBe16_inside (by omega), readSlice_inside (by omega), readSlice_inside (by omega),
    readSlice_inside (by omega)]
  simp only [access_then]
  have sha6 : ((pkt.drop 8).take 6).length = 6 := slice_length (by omega)
  refine .branch (fun _ => .branch (fun _ => ?_) fun _ => .pure ()) fun _ => .branch (fun _ => ?_) fun _ => .pure ()
  · refine arpXmit_stays (slice_length (by omega)) ?_
    rintro _ ⟨⟩
    exact sha6
  · refine .modify fun stack ready => ?_
    split
    · exact { ready with arpMac := sha6, gwMac := sha6 }
    · exact { ready with arpMac := sha6 }

theorem acceptData_stays (seq : Nat) {doff : Nat} (inside : doff ≤ bytes.length) :
    Stays (Ready frames stem) (acceptData seq doff bytes) := by
  intro stack ready
  refine Ends.get_then (Ends.branch (fun _ => ?_) fun _ => Ends.pure ready)
  have room : u64 (2 ^ 64 + Tcp.rxDataSize - stack.tcp.rxData.length) = Tcp.rxDataSize - stack.tcp.rxData.length := by
    have := ready.rxData
    simp only [u64, Tcp.rxDataSize] at this ⊢
    omega
  generalize copied : (if bytes.length - doff < u64 (2 ^ 64 + Tcp.rxDataSize - stack.tcp.rxData.length)
    then bytes.length - doff else u64 (2 ^ 64 + Tcp.rxDataSize - stack.tcp.rxData.length)) = copy
  have fitting : copy ≤ bytes.length - doff ∧ stack.tcp.rxData.length + copy ≤ Tcp.rxDataSize := by
    have := ready.rxData
    rw [room] at copied
    split at copied <;> omega
  dsimp only
  rw [copied, readSlice_inside (by omega)]
  simp only [access_then]
  rw [fits_then fitting.2]
  refine Ends.modify { ready with rxData := ?_ }
  rw [length_append, slice_length (by omega)]
  exact fitting.2

theorem acceptFin_kept (seq plen : Nat) (tcp : Tcp.State) :
    (Tcp.acceptFin seq plen tcp).remoteIp = tcp.remoteIp ∧ (Tcp.acceptFin seq plen tcp).rxData = tcp.rxData := by
  unfold Tcp.acceptFin
  split
  · exact ⟨rfl, rfl⟩
  · split <;> exact ⟨rfl, rfl⟩

theorem onUdp_stays {src : List UInt8} (bytes : List UInt8) (src4 : src.length = 4) :
    Stays (Ready frames stem) (onUdp src bytes) := by
  intro stack ready
  refine Ends.get_then ?_
  by_cases long : 8 ≤ bytes.length
  · rw [Udp.onUdp_eq stack.udp src4 long, access_then]
    refine Ends.modify { ready with rxBuf := ?_ }
    rw [length_take]
    exact Nat.le_trans (Nat.min_le_left _ _) (Udp.copied_le _ long).2
  · rw [Udp.onUdp, if_pos (by omega), access_then]
    exact Ends.modify { ready with }

theorem echoMessage_length (payload : List UInt8) : (echoMessage payload).length = payload.length := by
  simp [echoMessage, echoWith]

theorem echoReply_stays {frame src : List UInt8} (long : 12 ≤ frame.length) (src4 : src.length = 4)
    (message : 8 ≤ payload.length) : Stays (Ready frames stem) (echoReply frame src payload) := by
  unfold echoReply
  refine .branch (fun _ => .pure _) fun short => ?_
  have inside : 20 + payload.length ≤ ippktSize := by omega
  rw [fits_then inside, readSlice_inside (by omega), access_then]
  have checked : Checked 1 src (echoMessage payload) :=
    ⟨fun _ => echoMessage_verifies (by omega) (by omega), fun other => by omega⟩
  rw [← echoMessage_length payload] at inside ⊢
  apply ethSend_stays
  · rw [length_append, ipHeader_length _ _ _ src4]
    simp only [ippktSize, frameSize] at inside ⊢
    omega
  · intro own own6
    exact (ethFrame_datagram 0 (slice_length (by omega)) own6 src4 (by omega) inside).verified checked

section Polling

variable (kept : Stays (Ready frames stem) poll)
include kept

theorem awaitArp_ends (dst : List UInt8) (rounds : Nat)
    (ready : Ready frames stem stack) : Ends True (awaitArp poll dst rounds) stack
      fun found after => Ready frames stem after ∧ ∀ mac ∈ found, mac.length = 6 := by
  induction rounds generalizing stack with
  | zero => exact Ends.pure ⟨ready, by simp⟩
  | succ rounds ih =>
    refine (kept stack ready).bind fun _ between kept => Ends.get_then (Ends.branch (fun _ => ?_) fun _ => ih kept)
    refine Ends.pure ⟨kept, ?_⟩
    rintro _ ⟨⟩
    exact kept.arpMac

theorem netIpv4Send_stays {proto : Nat} (dst4 : dst.length = 4)
    (small : proto < 256) (checked : Checked proto dst payload) :
    Stays (Ready frames stem) (netIpv4Send poll dst proto payload) := by
  intro stack ready
  refine Ends.get_then (Ends.branch (fun _ => Ends.pure ready) fun _ => Ends.branch (fun _ => ?_) fun _ => ?_)
  · exact transmit_stays ready.arpMac dst4 small checked stack ready
  · refine (arpXmit_stays dst4 (by simp) stack ready).bind fun _ asked still => ?_
    refine (awaitArp_ends kept dst 30 still).bind fun found between waited => ?_
    obtain ⟨still, six⟩ := waited
    cases found with
    | some mac => exact transmit_stays (six mac rfl) dst4 small checked between still
    | none =>
      refine Ends.get_then (Ends.branch (fun _ => ?_) fun _ => Ends.pure still)
      exact transmit_stays still.gwMac dst4 small checked between still

theorem sendSegment_stays (flags : Nat) (data : List UInt8) (ack : Nat) :
    Stays (Ready frames stem) (sendSegment poll flags data ack) := by
  refine .branch (fun _ => .pure _) fun short => fun stack ready => Ends.get_then ?_
  have checked := segment_checked stack.tcp flags ack ready.remoteIp (Nat.le_of_not_lt short)
  refine (netIpv4Send_stays kept ready.remoteIp (by omega) checked stack ready).bind fun delivered between kept => ?_
  refine Stays.branch (fun _ => ?_) (fun _ => .pure _) between kept
  exact .bind (.modify fun _ ready => { ready with }) fun _ => .pure _

theorem sendAck_stays : Stays (Ready frames stem) (sendAck poll) :=
  .get_then fun _ => (sendSegment_stays kept _ _ _).bind fun _ => .pure _

theorem handleFin_stays (seq plen : Nat) :
    Stays (Ready frames stem) (handleFin poll seq plen) := by
  refine (changeTcp_stays fun stack ready => ?_).bind fun _ =>
    (sendAck_stays kept).bind fun _ => changeTcp_stays fun _ ready => ⟨ready.remoteIp, ready.rxData⟩
  rw [(acceptFin_kept seq plen stack.tcp).1, (acceptFin_kept seq plen stack.tcp).2]
  exact ⟨ready.remoteIp, ready.rxData⟩

theorem onEstablished_stays (seq flags : Nat) {doff : Nat}
    (inside : doff ≤ bytes.length) : Stays (Ready frames stem) (onEstablished poll seq doff flags bytes) := by
  have fin : Stays (Ready frames stem)
      (if flags &&& 0x01 ≠ 0 then handleFin poll seq (bytes.length - doff) else pure ()) :=
    .branch (fun _ => handleFin_stays kept _ _) fun _ => .pure _
  refine .branch (fun _ => ?_) fun _ => fin
  exact (acceptData_stays seq inside).bind fun _ => (sendAck_stays kept).bind fun _ => fin

theorem onSynSent_stays (sport seq ack flags : Nat) :
    Stays (Ready frames stem) (onSynSent poll sport seq ack flags) := by
  refine .branch (fun _ => ?_) fun _ => .pure _
  exact (changeTcp_stays fun _ ready => ⟨ready.remoteIp, ready.rxData⟩).bind fun _ => sendAck_stays kept

theorem onTcp_stays (src bytes : List UInt8) :
    Stays (Ready frames stem) (onTcp poll src bytes) := by
  refine .get_then fun stack => .branch (fun _ => .pure _) fun long => .branch (fun _ => .pure _) fun _ => ?_
  rw [readBe16_inside (by omega), readBe16_inside (by omega), readBe32_inside (by omega), readBe32_inside (by omega),
    readByte_inside (by omega), readByte_inside (by omega)]
  simp only [access_then]
  refine .branch (fun _ => .pure _) fun _ => .branch (fun _ => .pure _) fun offset => ?_
  have inside : byteAt bytes 12 / 16 * 4 ≤ bytes.length := by omega
  cases stack.tcp.phase with
  | synSent => exact onSynSent_stays kept _ _ _ _
  | closed => exact .pure _
  | est => exact .branch (fun _ => .pure _) fun _ => onEstablished_stays kept _ _ inside
  | closeWait => exact .branch (fun _ => .pure _) fun _ => onEstablished_stays kept _ _ inside

theorem dispatch_stays {frame : List UInt8} {ihl tot : Nat}
    (long : 34 ≤ frame.length) (header : ihl ≤ tot) (inside : 14 + tot ≤ frame.length) :
    Stays (Ready frames stem) (dispatch poll frame ihl tot) := by
  refine .get_then fun stack => ?_
  rw [readByte_inside (by omega), readSlice_inside (by omega), readSlice_inside (by omega)]
  simp only [access_then]
  generalize byteAt frame 23 = proto
  have src4 : ((frame.drop 26).take 4).length = 4 := slice_length (by omega)
  generalize (frame.drop 26).take 4 = src at src4
  generalize (frame.drop (14 + ihl)).take (tot - ihl) = payload
  refine .branch (fun _ => .branch (fun echo => ?_) fun _ => .pure _) fun _ => .branch (fun _ => ?_) fun _ =>
    .branch (fun _ => ?_) fun _ => .pure _
  · rw [readByte_inside (by omega), access_then]
    exact .branch (fun _ => echoReply_stays (by omega) src4 echo) fun _ => .pure _
  · exact .branch (fun _ => onTcp_stays kept src payload) fun _ => .pure _
  · exact .branch (fun _ => onUdp_stays payload src4) fun _ => .pure _

theorem handleIp_stays (frame : List UInt8) :
    Stays (Ready frames stem) (handleIp poll frame) := by
  unfold handleIp
  refine .branch (fun _ => .pure _) fun long => ?_
  rw [readByte_inside (by omega), readBe16_inside (by omega)]
  simp only [access_then]
  refine .branch (fun _ => .pure _) fun _ => .branch (fun _ => .pure _) fun header => .branch (fun _ => .pure _)
    fun whole => .branch (fun truncated => .branch (fun _ => .pure _) fun enough => ?_) fun fitting => ?_
  · have narrowed := Nat.mod_le (frame.length - 14) (2 ^ 16)
    exact dispatch_stays kept (by omega) (by omega) (by omega)
  · exact dispatch_stays kept (by omega) (by omega) (by omega)

end Polling

theorem ne2kPoll_then {rest : List UInt8 → Code α} {enough : Prop} {post : α → Stack → Prop}
    (next : Ends enough (rest ((stack.incoming.headD []).take frameSize)) { stack with incoming := stack.incoming.tail }
      post) : Ends enough (ne2kPoll >>= rest) stack post :=
  next

theorem netPoll_stays {fuel : Nat} (enough : frames < fuel) : Stays (Ready frames stem) (netPoll fuel) := by
  induction fuel generalizing frames with
  | zero => omega
  | succ fuel ih =>
    intro stack ready
    refine ne2kPoll_then ?_
    cases found : stack.incoming with
    | nil => exact Ends.branch (fun _ => Ends.pure { ready with incoming := by simp }) fun long => absurd (by simp) long
    | cons frame rest =>
      have fewer : rest.length < frames := by
        have := ready.incoming
        rw [found, length_cons] at this
        exact this
      have taken : Ready (frames - 1) stem { stack with incoming := rest } :=
        { ready with incoming := Nat.le_sub_one_of_lt fewer }
      have widen : ∀ (_ : Unit) (final : Stack), Ready (frames - 1) stem final → Ready frames stem final := by
        intro _ final kept
        exact { kept with incoming := Nat.le_trans kept.incoming (by omega) }
      generalize (frame :: rest).headD [] = head
      refine Ends.imp (Stays.branch (fun _ => .pure _) (fun long => ?_) _ taken) widen
      rw [readBe16_inside (by omega), access_then]
      refine .branch (fun _ => handleArp_stays _) fun _ => .branch (fun _ => ?_) fun _ => .pure _
      exact handleIp_stays (ih (by omega)) _

theorem ignore_stays {code : Code α} (kept : Stays (Ready frames stem) code) : Stays (Ready frames stem) (ignore code) :=
  kept.bind fun _ => .pure _

section Calls

variable (kept : Stays (Ready frames stem) poll)
include kept

theorem polls_stays (rounds : Nat) : Stays (Ready frames stem) (polls poll rounds) := by
  induction rounds with
  | zero => exact .pure _
  | succ rounds ih => exact kept.bind fun _ => ih

theorem netPing_stays (dst4 : dst.length = 4) :
    Stays (Ready frames stem) (netPing poll dst) :=
  (netIpv4Send_stays kept dst4 (by omega) ⟨fun _ => pingMessage_verifies, fun other => by omega⟩).bind fun _ =>
    .branch (fun _ => (polls_stays kept 40).bind fun _ => .pure _) fun _ => .pure _

theorem netInit_stays (card : Option (Address 6)) :
    Stays (Ready frames stem) (netInit poll (card.map Subtype.val)) := by
  have gateway (rounds : Nat) : Stays (Ready frames stem) (awaitGateway poll rounds) := by
    induction rounds with
    | zero => exact .pure _
    | succ rounds ih => exact kept.bind fun _ => .get_then fun _ => .branch (fun _ => .pure _) fun _ => ih
  refine .bind (.modify fun _ ready => { ready with }) fun _ => ?_
  cases card with
  | none => exact .pure _
  | some mac =>
    refine .bind (.modify fun _ ready => { ready with mac := mac.property }) fun _ => ?_
    exact (arpXmit_stays rfl (by simp)).bind fun _ => (gateway 30).bind fun _ => .pure _

theorem udpSend_stays (dst4 : dst.length = 4) (dstPort srcPort : Nat)
    (data : List UInt8) : Stays (Ready frames stem) (udpSend poll dst dstPort srcPort data) :=
  .branch (fun _ => .pure _) fun _ =>
    netIpv4Send_stays kept dst4 (by omega) ⟨fun other => by omega, fun other => by omega⟩

theorem tcpClose_stays : Stays (Ready frames stem) (tcpClose poll) := by
  have drops : Stays (Ready frames stem) (dropConnection poll) :=
    (changeTcp_stays fun _ ready => ⟨ready.remoteIp, Nat.zero_le _⟩).bind fun _ => polls_stays kept _
  refine .get_then fun _ => .branch (fun _ => .bind ?_ fun _ => drops) fun _ => drops
  refine .get_then fun _ => (sendSegment_stays kept _ _ _).bind fun _ => ?_
  refine (changeTcp_stays fun _ ready => ⟨ready.remoteIp, ready.rxData⟩).bind fun _ => ?_
  refine (polls_stays kept _).bind fun _ => .get_then fun _ => ?_
  exact (sendSegment_stays kept _ _ _).bind fun _ => polls_stays kept _

theorem tcpConnect_stays {ip : List UInt8} (ip4 : ip.length = 4) (port : Nat) :
    Stays (Ready frames stem) (tcpConnect poll ip port) := by
  have waits (rounds : Nat) : Stays (Ready frames stem) (awaitSynack poll rounds) := by
    induction rounds with
    | zero => exact (changeTcp_stays fun _ ready => ⟨ready.remoteIp, ready.rxData⟩).bind fun _ => .pure _
    | succ rounds ih => exact kept.bind fun _ => .get_then fun _ => .branch (fun _ => .pure _) fun _ => ih
  have connects : Stays (Ready frames stem) (tcpConnectClosed poll ip port) := by
    refine (polls_stays kept _).bind fun _ => (changeTcp_stays fun _ _ => ⟨ip4, Nat.zero_le _⟩).bind fun _ => ?_
    refine (sendSegment_stays kept _ _ _).bind fun _ => .branch (fun _ => ?_) fun _ => ?_
    · exact (changeTcp_stays fun _ ready => ⟨ready.remoteIp, ready.rxData⟩).bind fun _ => waits 400
    · exact (changeTcp_stays fun _ ready => ⟨ready.remoteIp, ready.rxData⟩).bind fun _ => .pure _
  exact .get_then fun _ => .branch (fun _ => connects) fun _ => (tcpClose_stays kept).bind fun _ => connects

theorem tcpSend_stays (data : List UInt8) :
    Stays (Ready frames stem) (tcpSend poll data) := by
  have chunks (count : Nat) (data : List UInt8) : Stays (Ready frames stem) (sendChunks poll count data) := by
    induction count generalizing data with
    | zero => exact .pure _
    | succ count ih =>
      refine .get_then fun _ => (sendSegment_stays kept _ _ _).bind fun _ => .branch (fun _ => ?_) fun _ => .pure _
      refine (changeTcp_stays fun _ ready => ⟨ready.remoteIp, ready.rxData⟩).bind fun _ => ?_
      exact (polls_stays kept _).bind fun _ => ih _
  exact .get_then fun _ => .branch (fun _ => .pure _) fun _ => chunks _ _

theorem tcpRecv_stays (maxlen rounds : Nat) :
    Stays (Ready frames stem) (tcpRecv poll maxlen rounds) := by
  induction rounds with
  | zero => exact .pure _
  | succ rounds ih =>
    refine kept.bind fun _ => .get_then fun _ => .branch (fun _ => ?_) fun _ => .branch (fun _ => .pure _) fun _ => ih
    refine (changeTcp_stays fun stack ready => ⟨ready.remoteIp, ?_⟩).bind fun _ => .pure _
    rw [length_drop]
    exact Nat.le_trans (Nat.sub_le _ _) ready.rxData

theorem udpRecv_stays (localPort maxlen rounds : Nat) :
    Stays (Ready frames stem) (udpRecv poll localPort maxlen rounds) := by
  refine .bind (.modify fun _ ready => { ready with }) fun _ => ?_
  induction rounds with
  | zero => exact .pure _
  | succ rounds ih =>
    refine kept.bind fun _ => .get_then fun stack => .branch (fun _ => ?_) fun _ => ih
    generalize found : (if stack.udp.rxBuf.length < maxlen then stack.udp.rxBuf.length else maxlen) = count
    have bounds : count ≤ maxlen ∧ count ≤ stack.udp.rxBuf.length := by split at found <;> omega
    rw [fits_then bounds.1, readSlice_inside (by omega), access_then]
    exact .bind (.modify fun _ ready => { ready with }) fun _ => .pure _

theorem receiveAnswer_stays (localPort : Nat) :
    Stays (Ready frames stem) (receiveAnswer poll localPort) := by
  refine (udpRecv_stays kept localPort _ 40).bind fun message => ?_
  cases message with
  | none => exact .pure _
  | some message =>
    obtain ⟨address, parsed⟩ := Dns.parseAnswer_returns message.data
    dsimp only
    rw [parsed]
    exact .pure address

theorem dnsResolve_kept (name : List UInt8)
    (ready : Ready frames stem stack) :
    Ends False (dnsResolve poll name) stack fun _ after => Ready frames stem after := by
  unfold dnsResolve
  cases Dns.parseIp name with
  | some address => exact Ends.pure ready
  | none =>
    refine Ends.modify_then (Ends.get_then ?_)
    cases Dns.query ((stack.txid + 1) % 2 ^ 16) name with
    | none => exact ⟨False.elim, fun _ _ ran => by cases ran⟩
    | some query =>
      rw [access_then]
      have renumbered : Ready frames stem { stack with txid := (stack.txid + 1) % 2 ^ 16 } := { ready with }
      cases query with
      | none => exact Ends.pure renumbered
      | some query =>
        refine Ends.mono (Stays.bind (udpSend_stays kept rfl _ _ _) (fun sent => ?_) _ renumbered) False.elim
          fun _ _ holds => holds
        exact .branch (fun _ => receiveAnswer_stays kept _) fun _ => .pure _

theorem code_kept (call : Call) (ready : Ready frames stem stack) :
    Ends False (call.code poll) stack fun _ after => Ready frames stem after := by
  have partially {code : Code Unit} (stays : Stays (Ready frames stem) code) :
      Ends False code stack fun _ after => Ready frames stem after :=
    (stays stack ready).mono False.elim fun _ _ holds => holds
  cases call with
  | netInit card => exact partially (ignore_stays (netInit_stays kept card))
  | netPoll => exact partially kept
  | netPing dst => exact partially (ignore_stays (netPing_stays kept dst.property))
  | tcpConnect ip port => exact partially (ignore_stays (tcpConnect_stays kept ip.property port))
  | tcpSend data => exact partially (ignore_stays (tcpSend_stays kept data))
  | tcpRecv maxlen rounds => exact partially (ignore_stays (tcpRecv_stays kept maxlen rounds))
  | tcpClose => exact partially (tcpClose_stays kept)
  | udpSend dst dstPort srcPort data =>
    exact partially (ignore_stays (udpSend_stays kept dst.property dstPort srcPort data))
  | udpRecv localPort maxlen rounds => exact partially (ignore_stays (udpRecv_stays kept localPort maxlen rounds))
  | dnsResolve name => exact (dnsResolve_kept kept name ready).bind fun _ _ holds => Ends.pure holds

end Calls

def Bounded (stack : Stack) : Prop := Ready stack.incoming.length [] stack

theorem step_bounded (before : Stack) (event : Event) (after : Stack) (bounded : Bounded before)
    (moved : step before event = some after) : Bounded after := by
  cases event with
  | arrives frame =>
    cases moved
    exact { bounded with incoming := Nat.le_refl _ }
  | call call =>
    obtain ⟨⟨_, final⟩, ran, rfl⟩ := Option.map_eq_some_iff.mp moved
    have ready := (code_kept (netPoll_stays (Nat.lt_succ_self _)) call bounded).2 () final ran
    exact { ready with incoming := Nat.le_refl _ }

theorem Reachable.bounded (reached : Reachable stack) : Bounded stack := by
  obtain ⟨events, ran⟩ := reached
  refine (Run.of_foldlM ran).preserves step_bounded ?_
  exact ⟨rfl, rfl, rfl, rfl, Nat.zero_le _, Nat.zero_le _, by simp [initialStack],
    nil_prefix, Nat.zero_le _⟩

/-- A poll and the reception of a DNS answer make no access outside the received bytes and the
buffers. -/
theorem receive_path_in_bounds {stack : Stack} (reached : Reachable stack) (frames : List (List UInt8)) {fuel : Nat}
    (enough : frames.length < fuel) :
    (netPoll fuel { stack with incoming := frames }).isSome ∧
      ∀ localPort, (receiveAnswer (netPoll fuel) localPort { stack with incoming := frames }).isSome := by
  have ready : Ready frames.length [] { stack with incoming := frames } :=
    { reached.bounded with incoming := Nat.le_refl _ }
  refine ⟨(netPoll_stays enough _ ready).1 trivial, fun localPort => ?_⟩
  exact (receiveAnswer_stays (netPoll_stays enough) localPort _ ready).1 trivial

theorem receive_path_in_bounds_cut :
    (netPoll 2 { initialStack with incoming := [List.replicate 12 0 ++ [8, 0, 0x4F] ++ List.replicate 20 0] }).isSome ∧
      ∀ localPort, (receiveAnswer (netPoll 2) localPort
        { initialStack with incoming := [List.replicate 12 0 ++ [8, 0, 0x4F] ++ List.replicate 20 0] }).isSome :=
  receive_path_in_bounds ⟨[], rfl⟩ _ (by decide)

/-- Every packet of the stack verifies at its receiver, and no checksum loop
overflows on the way. -/
theorem packets_verify :
    (∀ stack, Reachable stack → ∀ frame ∈ stack.sent, Verified frame) ∧
    (∀ total id proto (dst : Address 4), onesSum (words16 (ipHeader total id proto dst)) = 0xFFFF) ∧
    (∀ payload, 8 ≤ payload.length → 20 + payload.length ≤ ippktSize →
      onesSum (words16 (echoMessage payload)) = 0xFFFF) ∧
    onesSum (words16 pingMessage) = 0xFFFF ∧
    (∀ (tcp : Tcp.State) flags data ack, tcp.remoteIp.length = 4 → 20 + data.length ≤ 1400 →
      onesSum (words16 (pseudoHeader Tcp.netIpAddr tcp.remoteIp (Tcp.buildSegment tcp flags data ack).length ++
        Tcp.buildSegment tcp flags data ack)) = 0xFFFF) ∧
    (∀ bytes, bytes.length ≤ ippktSize → NoOverflow 0 bytes) ∧
    (∀ (src dst : Address 4) tcp, tcp.length ≤ 1400 →
      TcpNoOverflow src dst tcp ∧ tcpChecksum32 src dst tcp = Tcp.tcpChecksum src dst tcp) := by
  refine ⟨fun stack reached => reached.bounded.sent, fun total id proto dst => ipHeader_verifies total id proto dst.property,
    fun payload long short => echoMessage_verifies (by omega) (by omega), pingMessage_verifies,
    fun tcp flags data ack ip4 short => buildSegment_verifies tcp flags ack ip4 short,
    fun bytes short => noOverflow_of_length (by omega) short, fun src dst tcp short => ?_⟩
  have fits : TcpNoOverflow src dst tcp :=
    tcp_noOverflow src.property dst.property (Nat.le_trans short (by decide))
  exact ⟨fits, tcpChecksum32_eq fits⟩

def echoRequest : List UInt8 :=
  [0x52, 0x54, 0, 0x12, 0x34, 0x56, 0x52, 0x55, 10, 0, 2, 2, 8, 0] ++
    [0x45, 0, 0, 28, 0, 0, 0, 0, 64, 1, 0, 0, 10, 0, 2, 2, 10, 0, 2, 15] ++ [8, 0, 0, 0, 0, 1, 0, 1]

theorem packets_verify_echo : ∃ stack, Reachable stack ∧ stack.sent.length = 2 ∧ ∀ frame ∈ stack.sent, Verified frame := by
  have ran : (([.call (.netInit (some ⟨[0x52, 0x54, 0, 0x12, 0x34, 0x56], rfl⟩)), .arrives echoRequest,
      .call .netPoll] : List Event).foldlM step initialStack).map (fun stack => stack.sent.length) = some 2 := by
    decide +kernel
  obtain ⟨stack, reached, count⟩ := Option.map_eq_some_iff.mp ran
  exact ⟨stack, ⟨_, reached⟩, count, packets_verify.1 stack ⟨_, reached⟩⟩

end GWKernel.Net
