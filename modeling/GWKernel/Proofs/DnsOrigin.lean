import GWKernel.Dns

/-! Where the answer of `dns_resolve` comes from: the first datagram for the local port, which may
be older than the query. Neither its sender nor its number is checked. -/

namespace GWKernel.Udp
open Lib
open Option (bind_eq_bind bind_some map_some)

theorem copied_le {len : Nat} (ulen : Nat) (long : 8 ≤ len) :
    copied len ulen ≤ len - 8 ∧ copied len ulen ≤ rxBufSize := by
  simp only [copied, rxBufSize, u64]
  constructor
  · split
    · split <;> omega
    · split <;> omega
  · split
    · split <;> omega
    · split <;> omega

theorem onUdp_eq {src bytes : List UInt8} (udp : State) (src4 : src.length = 4) (long : 8 ≤ bytes.length) :
    onUdp src bytes udp = some { udp with
      rxBuf := (bytes.drop 8).take (copied bytes.length (be16 bytes 4))
      rxSrcIp := src
      rxSrcPort := be16 bytes 0
      rxDstPort := be16 bytes 2
      rxHave := true } := by
  obtain ⟨available, room⟩ := copied_le (be16 bytes 4) long
  have source : readSlice src 0 4 = some src := by
    rw [readSlice_inside (by omega), List.drop_zero, List.take_of_length_le (by omega)]
  rw [onUdp, if_neg (by omega), readBe16_inside (by omega), readBe16_inside (by omega),
    readBe16_inside (by omega)]
  simp only [bind_eq_bind, bind_some]
  rw [readSlice_inside (by omega), source, guard, if_pos room]
  rfl

structure Letter where
  data : List UInt8
  srcIp : List UInt8
  srcPort : Nat
  dstPort : Nat

/-- What `on_udp` keeps of a datagram; one without a header is ignored. -/
def Datagram.letter (datagram : Datagram) : Option Letter :=
  if datagram.udp.length < 8 then none
  else some
    { data := (datagram.udp.drop 8).take (copied datagram.udp.length (be16 datagram.udp 4))
      srcIp := datagram.srcIp
      srcPort := be16 datagram.udp 0
      dstPort := be16 datagram.udp 2 }

def State.letter (udp : State) : Option Letter :=
  if udp.rxHave then some ⟨udp.rxBuf, udp.rxSrcIp, udp.rxSrcPort, udp.rxDstPort⟩ else none

def lastLetter (held : Option Letter) (datagrams : List Datagram) : Option Letter :=
  datagrams.foldl (fun held datagram => datagram.letter.or held) held

def takenUp (port : Nat) : Option Letter → List (List Datagram) → Option Letter
  | _, [] => none
  | held, poll :: polls =>
    match lastLetter held poll with
    | some letter => if letter.dstPort = port then some letter else takenUp port (some letter) polls
    | none => takenUp port none polls

theorem onUdp_letter (datagram : Datagram) (udp : State) :
    ∃ after, onUdp datagram.srcIp datagram.udp udp = some after ∧
      after.letter = datagram.letter.or udp.letter ∧ after.listening = udp.listening := by
  by_cases long : 8 ≤ datagram.udp.length
  · refine ⟨_, onUdp_eq udp datagram.four long, ?_, rfl⟩
    rw [Datagram.letter, if_neg (by omega)]
    rfl
  · refine ⟨udp, if_pos (by omega), ?_, rfl⟩
    rw [Datagram.letter, if_pos (by omega)]
    rfl

theorem deliver_letter (datagrams : List Datagram) {udp : State} (listening : udp.listening = true) :
    ∃ after, deliver datagrams udp = some after ∧ after.letter = lastLetter udp.letter datagrams ∧
      after.listening = true := by
  induction datagrams generalizing udp with
  | nil => exact ⟨udp, rfl, rfl, listening⟩
  | cons datagram rest ih =>
    obtain ⟨next, handled, letter, still⟩ := onUdp_letter datagram udp
    obtain ⟨after, ran, last, open_⟩ := ih (still.trans listening)
    refine ⟨after, ?_, ?_, open_⟩
    · rw [deliver, List.foldlM_cons, if_pos listening, handled]
      exact ran
    · rw [last, letter]
      rfl

theorem deliver_unheard (datagrams : List Datagram) {udp : State} (deaf : udp.listening = false) :
    deliver datagrams udp = some udp := by
  induction datagrams with
  | nil => rfl
  | cons datagram rest ih =>
    rw [deliver, List.foldlM_cons, deaf]
    exact ih

def Letter.message (maxlen : Nat) (letter : Letter) : Message := ⟨letter.data.take maxlen, letter.srcIp, letter.srcPort⟩

theorem readSlice_clamped (bytes : List UInt8) (maxlen : Nat) :
    readSlice bytes 0 (if bytes.length < maxlen then bytes.length else maxlen) = some (bytes.take maxlen) := by
  split
  next short =>
    rw [readSlice_inside (by omega), List.drop_zero, List.take_length, List.take_of_length_le (by omega)]
  next => rw [readSlice_inside (by omega), List.drop_zero]

theorem awaitDatagram_takes (port maxlen : Nat) (polls : List (List Datagram)) {udp : State}
    (listening : udp.listening = true) :
    ∃ after, awaitDatagram port maxlen polls udp =
      some ((takenUp port udp.letter polls).map (Letter.message maxlen), after) := by
  induction polls generalizing udp with
  | nil => exact ⟨udp, rfl⟩
  | cons poll polls ih =>
    obtain ⟨next, delivered, letter, still⟩ := deliver_letter poll listening
    rw [awaitDatagram, delivered, takenUp, ← letter]
    simp only [bind_eq_bind, bind_some]
    have later : ∃ after, awaitDatagram port maxlen polls next =
        some ((takenUp port next.letter polls).map (Letter.message maxlen), after) := ih still
    cases present : next.rxHave with
    | false =>
      have empty : next.letter = none := by rw [State.letter, present]; rfl
      rw [empty] at later ⊢
      simpa using later
    | true =>
      have full : next.letter = some ⟨next.rxBuf, next.rxSrcIp, next.rxSrcPort, next.rxDstPort⟩ := by
        rw [State.letter, present]; rfl
      have bounded : (if next.rxBuf.length < maxlen then next.rxBuf.length else maxlen) ≤ maxlen := by split <;> omega
      rw [full] at later ⊢
      by_cases mine : next.rxDstPort = port
      · refine ⟨{ next with rxHave := false }, ?_⟩
        simp only [mine, and_self, if_true, readSlice_clamped, guard, if_pos bounded, bind_some, map_some]
        rfl
      · simpa [mine] using later

end GWKernel.Udp

namespace GWKernel.Dns
open Lib
open Option (bind_eq_bind bind_eq_some_iff bind_some map_eq_some_iff)

section Parser

variable (resp : List UInt8)

theorem skipLabels_returns {fuel i : Nat} (enough : resp.length < i + fuel) (positive : 0 < fuel) :
    ∃ next, skipLabels resp fuel i = some next := by
  induction fuel generalizing i with
  | zero => omega
  | succ fuel ih =>
    unfold skipLabels
    split
    next inside =>
      rw [readByte_inside inside]
      simp only [bind_eq_bind, bind_some]
      split
      · exact ⟨_, rfl⟩
      · split
        · exact ⟨_, rfl⟩
        · exact ih (by omega) (by omega)
    next => exact ⟨_, rfl⟩

theorem skipName_returns (i : Nat) : ∃ next, skipName resp i = some next := by
  obtain ⟨next, skipped⟩ := @skipLabels_returns resp (resp.length + 1) i (by omega) (by omega)
  rw [skipName, skipped]
  simp only [bind_eq_bind, bind_some]
  split
  next inside =>
    rw [readByte_inside inside]
    exact ⟨_, rfl⟩
  next => exact ⟨_, rfl⟩

theorem skipOwner_returns {i : Nat} (inside : i < resp.length) : ∃ next, skipOwner resp i = some next := by
  rw [skipOwner, readByte_inside inside]
  simp only [bind_eq_bind, bind_some]
  split
  · exact ⟨_, rfl⟩
  · exact skipName_returns resp i

theorem findAddress_returns (left i : Nat) : ∃ address, findAddress resp left i = some address := by
  induction left generalizing i with
  | zero => exact ⟨_, rfl⟩
  | succ left ih =>
    unfold findAddress
    split
    next inside =>
      obtain ⟨next, skipped⟩ := skipOwner_returns resp (show i < resp.length by omega)
      rw [skipped]
      simp only [bind_eq_bind, bind_some]
      split
      · exact ⟨_, rfl⟩
      next long =>
        rw [readBe16_inside (by omega), readBe16_inside (by omega)]
        simp only [bind_some]
        split
        next whole =>
          rw [readSlice_inside (by omega)]
          exact ⟨_, rfl⟩
        next => exact ih _
    next => exact ⟨_, rfl⟩

theorem parseAnswer_returns : ∃ address, parseAnswer resp = some address := by
  unfold parseAnswer
  split
  · exact ⟨_, rfl⟩
  next long =>
    rw [readBe16_inside (by omega)]
    simp only [bind_eq_bind, bind_some]
    split
    · exact ⟨_, rfl⟩
    · obtain ⟨next, skipped⟩ := skipName_returns resp 12
      rw [skipped]
      exact findAddress_returns resp _ _

end Parser

/-- The datagram that a call takes up: the first for its local port in the mailbox after a poll.
-/
def arrived (network : Network) (dns : State) : Option Udp.Message :=
  let held := if dns.udp.listening then Udp.lastLetter dns.udp.letter network.wait else dns.udp.letter
  (Udp.takenUp dns.localPort held (network.polls.take 40)).map (Udp.Letter.message messageSize)

/-- The datagram that `udp_recv` hands to the call. -/
def Handed (name : List UInt8) (network : Network) (dns : State) (message : Udp.Message) : Prop :=
  ∃ sent started after, query dns.queryId name = some (some sent) ∧
    Udp.udpSend sent network.wait network.sent dns.udp = some (true, started) ∧
    Udp.udpRecv dns.localPort messageSize (network.polls.take 40) started = some (some message, after)

/-- The datagram comes from the server, and in answer to this call's query. -/
structure Genuine (dns : State) (message : Udp.Message) : Prop where
  server : message.srcIp = [10, 0, 2, 3]
  port : message.fromPort = 53
  number : be16 message.data 0 = dns.queryId

theorem query_length {txid : Nat} {name sent : List UInt8} (built : query txid name = some (some sent)) :
    sent.length ≤ messageSize := by
  unfold query at built
  obtain ⟨written, _, built⟩ := bind_eq_some_iff.mp built
  cases written with
  | none => cases built
  | some written =>
    obtain ⟨_, fits, built⟩ := bind_eq_some_iff.mp built
    cases built
    by_contra long
    rw [guard, if_neg long] at fits
    cases fits

theorem udpRecv_arrived {name sent : List UInt8} {network : Network} {dns : State}
    (built : query dns.queryId name = some (some sent)) :
    ∃ started after, Udp.udpSend sent network.wait network.sent dns.udp = some (network.sent, started) ∧
      Udp.udpRecv dns.localPort messageSize (network.polls.take 40) started = some (arrived network dns, after) := by
  have short : ¬1480 < sent.length + 8 := by
    have := query_length built
    simp only [messageSize] at this
    omega
  obtain ⟨started, delivered, letter⟩ : ∃ started, Udp.deliver network.wait dns.udp = some started ∧
      started.letter = if dns.udp.listening then Udp.lastLetter dns.udp.letter network.wait else dns.udp.letter := by
    cases heard : dns.udp.listening with
    | true =>
      obtain ⟨started, delivered, letter, _⟩ := Udp.deliver_letter network.wait heard
      exact ⟨started, delivered, letter⟩
    | false => exact ⟨dns.udp, Udp.deliver_unheard network.wait heard, rfl⟩
  have unread : { started with listening := true }.letter = started.letter := rfl
  obtain ⟨after, received⟩ := @Udp.awaitDatagram_takes dns.localPort messageSize (network.polls.take 40)
    { started with listening := true } rfl
  rw [unread, letter] at received
  refine ⟨started, after, ?_, received⟩
  rw [Udp.udpSend, if_neg short, delivered]
  rfl

theorem Handed.arrived {name : List UInt8} {network : Network} {dns : State} {message : Udp.Message}
    (handed : Handed name network dns message) : arrived network dns = some message := by
  obtain ⟨sent, started, after, built, went, received⟩ := handed
  obtain ⟨started', after', went', received'⟩ := @udpRecv_arrived name sent network dns built
  obtain rfl : started = started' := congrArg Prod.snd (Option.some.inj (went.symm.trans went'))
  exact (congrArg Prod.fst (Option.some.inj (received.symm.trans received'))).symm

theorem dnsResolve_returns {name address : List UInt8} {network : Network} {dns : State}
    (quad : parseIp name = none) :
    (∃ after, dnsResolve name network dns = some (some address, after)) ↔
      ∃ sent message, query dns.queryId name = some (some sent) ∧ network.sent = true ∧
        arrived network dns = some message ∧ parseAnswer message.data = some (some address) := by
  unfold dnsResolve
  rw [quad]
  dsimp only
  cases built : query dns.queryId name with
  | none => simp
  | some outcome =>
    cases outcome with
    | none => simp
    | some sent =>
      obtain ⟨started, after, went, received⟩ := @udpRecv_arrived name sent network dns built
      simp only [bind_eq_bind, bind_some, went]
      cases network.sent with
      | false => simp
      | true =>
        simp only [if_true, receiveAnswer, bind_eq_bind, received, bind_some, Option.some.injEq,
          true_and]
        cases arrived network dns with
        | none => simp
        | some message =>
          obtain ⟨found, parsed⟩ := parseAnswer_returns message.data
          simp [parsed]

/-- The call returns only addresses of the server's answer to its query exactly when the datagram
it takes up, if there is an address in it, is that answer. -/
theorem address_is_genuine {name : List UInt8} (quad : parseIp name = none) (network : Network) (dns : State) :
    (∀ address after, dnsResolve name network dns = some (some address, after) →
      ∃ message, Handed name network dns message ∧ Genuine dns message ∧
        parseAnswer message.data = some (some address)) ↔
    ∀ sent message address, query dns.queryId name = some (some sent) → network.sent = true →
      arrived network dns = some message → parseAnswer message.data = some (some address) → Genuine dns message := by
  constructor
  · intro holds sent message address built went taken parsed
    obtain ⟨after, returned⟩ := (dnsResolve_returns quad).mpr ⟨sent, message, built, went, taken, parsed⟩
    obtain ⟨other, handed, genuine, _⟩ := holds address after returned
    obtain rfl : message = other := Option.some.inj (taken.symm.trans handed.arrived)
    exact genuine
  · intro holds address after returned
    obtain ⟨sent, message, built, went, taken, parsed⟩ := (dnsResolve_returns quad).mp ⟨after, returned⟩
    obtain ⟨started, final, sending, received⟩ := @udpRecv_arrived name sent network dns built
    rw [taken] at received
    have handed : Handed name network dns message :=
      ⟨sent, started, final, built, sending.trans (by rw [went]), received⟩
    exact ⟨message, handed, holds sent message address built went taken parsed, parsed⟩

def reply (fromPort id : Nat) : List UInt8 :=
  Udp.packet 53053 fromPort (toBe16 id ++ [0x81, 0x80, 0, 1, 0, 1, 0, 0, 0, 0] ++ [1, 97, 0, 0, 1, 0, 1] ++
    [0xC0, 0x0C, 0, 1, 0, 1, 0, 0, 0, 60, 0, 4, 1, 2, 3, 4])

def firstCall : State := ⟨⟨[], [0, 0, 0, 0], 0, 0, false, false⟩, 0x1234⟩

def answered : Network := ⟨[], true, [[], [⟨[10, 0, 2, 3], reply 53 0x1235, rfl⟩]]⟩

theorem address_is_genuine_server : ∃ after message,
    dnsResolve [97] answered firstCall = some (some [1, 2, 3, 4], after) ∧ Handed [97] answered firstCall message ∧
      Genuine firstCall message ∧ parseAnswer message.data = some (some [1, 2, 3, 4]) := by
  have genuine := (@address_is_genuine [97] (by decide) answered firstCall).mpr fun sent message address _ _ taken _ => by
    have arrival : (arrived answered firstCall).map
        (fun message => (message.srcIp, message.fromPort, be16 message.data 0)) = some ([10, 0, 2, 3], 53, 0x1235) := by
      decide +kernel
    rw [taken] at arrival
    obtain ⟨server, port, number⟩ :
        message.srcIp = [10, 0, 2, 3] ∧ message.fromPort = 53 ∧ be16 message.data 0 = 0x1235 := by
      simpa using arrival
    exact ⟨server, port, number⟩
  have ran : (dnsResolve [97] answered firstCall).map Prod.fst = some (some [1, 2, 3, 4]) := by decide +kernel
  obtain ⟨⟨address, after⟩, returned, is⟩ := map_eq_some_iff.mp ran
  cases is
  obtain ⟨message, handed, own, parsed⟩ := genuine _ after returned
  exact ⟨after, message, returned, handed, own, parsed⟩

/-- Another host sends a reply with another number, and the call returns its address. -/
theorem forged_reply_is_taken : ∃ address after,
    dnsResolve [97] ⟨[], true, [[⟨[10, 0, 2, 99], reply 4444 0, rfl⟩]]⟩ firstCall = some (some address, after) ∧
      ∀ message, Handed [97] ⟨[], true, [[⟨[10, 0, 2, 99], reply 4444 0, rfl⟩]]⟩ firstCall message →
        message.srcIp = [10, 0, 2, 99] ∧ message.fromPort = 4444 ∧ be16 message.data 0 ≠ firstCall.queryId := by
  have ran : (dnsResolve [97] ⟨[], true, [[⟨[10, 0, 2, 99], reply 4444 0, rfl⟩]]⟩ firstCall).map Prod.fst =
      some (some [1, 2, 3, 4]) := by decide +kernel
  obtain ⟨⟨address, after⟩, returned, is⟩ := map_eq_some_iff.mp ran
  cases is
  refine ⟨[1, 2, 3, 4], after, returned, fun message handed => ?_⟩
  have arrival : (arrived ⟨[], true, [[⟨[10, 0, 2, 99], reply 4444 0, rfl⟩]]⟩ firstCall).map
      (fun message => (message.srcIp, message.fromPort, be16 message.data 0)) = some ([10, 0, 2, 99], 4444, 0) := by
    decide +kernel
  rw [handed.arrived] at arrival
  obtain ⟨server, port, number⟩ : message.srcIp = [10, 0, 2, 99] ∧ message.fromPort = 4444 ∧ be16 message.data 0 = 0 := by
    simpa using arrival
  refine ⟨server, port, ?_⟩
  rw [number]
  decide

end GWKernel.Dns
