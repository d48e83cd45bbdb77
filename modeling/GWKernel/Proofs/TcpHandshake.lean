import GWKernel.NetCalls
import GWKernel.Proofs.TcpStream

/-! When `tcp_connect` succeeds: the first segment with SYN and ACK that `on_tcp` lets through
decides. Neither its source port nor its acknowledgement number is looked at. -/

namespace GWKernel.Tcp
open Lib List

/-- What every segment leaves as it is, and what it does not take back. -/
structure Later (before after : State) : Prop where
  nextPort : after.nextPort = before.nextPort
  isnSeed : after.isnSeed = before.isnSeed
  listening : after.listening = before.listening
  gotSynack : before.gotSynack = true → after.gotSynack = true
  phase : before.phase ≠ .synSent → after.phase ≠ .synSent

theorem Later.refl (tcp : State) : Later tcp tcp := ⟨rfl, rfl, rfl, id, id⟩

theorem Later.trans {first second third : State} (left : Later first second) (right : Later second third) :
    Later first third :=
  ⟨right.nextPort.trans left.nextPort, right.isnSeed.trans left.isnSeed, right.listening.trans left.listening,
    right.gotSynack ∘ left.gotSynack, right.phase ∘ left.phase⟩

variable {tcp : State}

theorem later_acceptData (seq : Nat) (payload : List UInt8) : Later tcp (acceptData seq payload tcp) := by
  unfold acceptData
  split
  · exact ⟨rfl, rfl, rfl, id, id⟩
  · exact .refl tcp

theorem later_acceptFin (seq plen : Nat) : Later tcp (acceptFin seq plen tcp) := by
  unfold acceptFin
  split
  · exact ⟨rfl, rfl, rfl, id, id⟩
  · split <;> exact ⟨rfl, rfl, rfl, id, id⟩

theorem later_sendAck {wait : State → State} (later : Later tcp (wait tcp)) (delivered : Bool) :
    Later tcp (sendAck wait delivered tcp) := by
  obtain ⟨sent, same⟩ := sendAck_eq wait delivered tcp
  rw [same]
  exact ⟨later.nextPort, later.isnSeed, later.listening, later.gotSynack, later.phase⟩

theorem later_onEstablished (seq : Nat) (payload : List UInt8) (flags : Nat) {firstAck secondAck : State → State}
    (first : ∀ tcp, Later tcp (firstAck tcp)) (second : ∀ tcp, Later tcp (secondAck tcp)) :
    Later tcp (onEstablished seq payload flags firstAck secondAck tcp) := by
  have data : Later tcp (if 0 < payload.length then firstAck (acceptData seq payload tcp) else tcp) := by
    split
    · exact (later_acceptData seq payload).trans (first _)
    · exact .refl tcp
  unfold onEstablished
  generalize (if 0 < payload.length then firstAck (acceptData seq payload tcp) else tcp) = middle at data ⊢
  dsimp only
  split
  · have fin := data.trans ((later_acceptFin seq payload.length).trans (second _))
    exact ⟨fin.nextPort, fin.isnSeed, fin.listening, fin.gotSynack, fun _ => by simp⟩
  · exact data

/-- A SYN with ACK that `on_tcp` acts on while a connection to `ip` is opened. -/
def accepted (ip : List UInt8) (localPort : Nat) : Arrival → Bool
  | .mk srcIp bytes .. =>
    20 ≤ bytes.length ∧ srcIp = ip ∧ be16 bytes 2 = localPort ∧ (20 ≤ doffOf bytes ∧ doffOf bytes ≤ bytes.length) ∧
      byteAt bytes 13 &&& 0x12 = 0x12

mutual

theorem later_onTcp : ∀ (arrival : Arrival) (tcp : State), Later tcp (onTcp arrival tcp)
  | .mk srcIp bytes first firstDelivered second secondDelivered, tcp => by
    have firstAck (current : State) := later_sendAck (later_netPolls first current) firstDelivered
    have secondAck (current : State) := later_sendAck (later_netPolls second current) secondDelivered
    unfold onTcp
    split
    · exact .refl tcp
    split
    · exact .refl tcp
    split
    · exact .refl tcp
    dsimp only
    split
    · exact .refl tcp
    split
    next =>
      unfold onSynSent
      split
      · have opened : Later tcp { tcp with
            remotePort := be16 bytes 0
            rcvNxt := u32 (be32 bytes 4 + 1)
            sndNxt := be32 bytes 8
            gotSynack := true
            phase := .est } := ⟨rfl, rfl, rfl, fun _ => rfl, fun _ => by simp⟩
        exact opened.trans (firstAck _)
      · exact .refl tcp
    next => exact .refl tcp
    all_goals
      split
      · exact .refl tcp
      · exact later_onEstablished _ _ _ firstAck secondAck

theorem later_netPolls : ∀ (arrivals : List Arrival) (tcp : State), Later tcp (netPolls arrivals tcp)
  | [], tcp => by
    simp only [netPolls]
    exact .refl tcp
  | arrival :: rest, tcp => by
    simp only [netPolls]
    refine Later.trans ?_ (later_netPolls rest _)
    split
    · exact later_onTcp arrival tcp
    · exact .refl tcp

end

theorem netPolls_append (before after : List Arrival) (tcp : State) :
    netPolls (before ++ after) tcp = netPolls after (netPolls before tcp) := by
  induction before generalizing tcp with
  | nil => simp only [nil_append, netPolls]
  | cons arrival rest ih => simp only [cons_append, netPolls, ih]

/-- A connection to `ip` from `localPort` that waits for its handshake. -/
structure Opening (ip : List UInt8) (localPort : Nat) (tcp : State) : Prop where
  phase : tcp.phase = .synSent
  remoteIp : tcp.remoteIp = ip
  localPort : tcp.localPort = localPort
  listening : tcp.listening = true
  gotSynack : tcp.gotSynack = false

/-- A connection that has left ST_SYN_SENT. -/
structure Entered (tcp : State) : Prop where
  phase : tcp.phase ≠ .synSent
  gotSynack : tcp.gotSynack = true

variable {ip : List UInt8} {localPort : Nat}

theorem onTcp_opening (opening : Opening ip localPort tcp) (arrival : Arrival) :
    (accepted ip localPort arrival = false → onTcp arrival tcp = tcp) ∧
      (accepted ip localPort arrival = true → Entered (onTcp arrival tcp)) := by
  obtain ⟨srcIp, bytes, first, firstDelivered, second, secondDelivered⟩ := arrival
  have answer (state : State) : Later state (sendAck (fun current => netPolls first current) firstDelivered state) :=
    later_sendAck (later_netPolls first state) firstDelivered
  by_cases passes : accepted ip localPort (.mk srcIp bytes first firstDelivered second secondDelivered) = true
  · refine ⟨fun fails => absurd passes (by simp [fails]), fun _ => ?_⟩
    obtain ⟨long, source, target, offset, flags⟩ := of_decide_eq_true passes
    have header : ¬(byteAt bytes 12 / 16 * 4 < 20 ∨ bytes.length < byteAt bytes 12 / 16 * 4) := by
      simp only [doffOf] at offset
      omega
    unfold onTcp
    rw [if_neg (by omega), if_neg (by simp [source, opening.remoteIp]), if_neg (by simp [target, opening.localPort])]
    dsimp only
    rw [if_neg header, opening.phase]
    dsimp only [onSynSent]
    rw [if_pos flags]
    have later := answer { tcp with
      remotePort := be16 bytes 0
      rcvNxt := u32 (be32 bytes 4 + 1)
      sndNxt := be32 bytes 8
      gotSynack := true
      phase := .est }
    exact ⟨later.phase (by simp), later.gotSynack rfl⟩
  · refine ⟨fun _ => ?_, fun holds => absurd holds passes⟩
    unfold onTcp
    split
    · rfl
    split
    · rfl
    split
    · rfl
    dsimp only
    split
    · rfl
    next long source target offset =>
      rw [opening.phase]
      dsimp only [onSynSent]
      rw [if_neg]
      intro flags
      refine passes (decide_eq_true ⟨by omega, ?_, ?_, ?_, flags⟩)
      · simpa [opening.remoteIp] using source
      · simpa [opening.localPort] using target
      · simp only [doffOf]
        omega

/-- Segments that are not let through change nothing; the first one that is leaves ST_SYN_SENT for
good. -/
theorem netPolls_opening (opening : Opening ip localPort tcp) (arrivals : List Arrival) :
    ((∀ arrival ∈ arrivals, accepted ip localPort arrival = false) → netPolls arrivals tcp = tcp) ∧
      ((∃ arrival ∈ arrivals, accepted ip localPort arrival = true) → Entered (netPolls arrivals tcp)) := by
  induction arrivals with
  | nil => exact ⟨fun _ => by simp only [netPolls], fun ⟨_, inside, _⟩ => by cases inside⟩
  | cons arrival rest ih =>
    obtain ⟨ignored, enters⟩ := onTcp_opening opening arrival
    simp only [netPolls, opening.listening, if_true]
    cases passes : accepted ip localPort arrival with
    | false =>
      rw [ignored passes]
      refine ⟨fun none => ih.1 fun other inside => none other (mem_cons_of_mem _ inside), ?_⟩
      rintro ⟨other, inside, holds⟩
      rcases mem_cons.mp inside with rfl | inside
      · exact absurd holds (by simp [passes])
      · exact ih.2 ⟨other, inside, holds⟩
    | true =>
      refine ⟨fun none => absurd (none arrival mem_cons_self) (by simp [passes]), fun _ => ?_⟩
      have later := later_netPolls rest (onTcp arrival tcp)
      exact ⟨later.phase (enters passes).phase, later.gotSynack (enters passes).gotSynack⟩

def received (polls : List (Option Arrival)) : List Arrival := polls.filterMap id

theorem settle_eq (polls : List (Option Arrival)) (tcp : State) :
    polls.foldl (fun current poll => netPoll poll current) tcp = netPolls (received polls) tcp := by
  induction polls generalizing tcp with
  | nil => simp only [foldl_nil, received, filterMap_nil, netPolls]
  | cons poll rest ih =>
    rw [foldl_cons, ih]
    cases poll with
    | none => rfl
    | some arrival =>
      have split : received (some arrival :: rest) = [arrival] ++ received rest := rfl
      rw [split, netPolls_append]
      rfl

def synNumber (opened : State) : Nat := be32 (buildSegment opened 0x02 [] 0) 4

theorem synNumber_eq {opened : State} (small : opened.sndNxt < 2 ^ 32) : synNumber opened = opened.sndNxt := by
  have field : synNumber opened = be32 (toBe32 opened.sndNxt ++ []) 0 := rfl
  rw [field, be32_toBe32 small]

/-- A SYN with ACK for this connection, from `port` of the host and for our SYN. -/
def Answers (ip : List UInt8) (localPort port isn : Nat) (arrival : Arrival) : Prop :=
  accepted ip localPort arrival = true ∧
    match arrival with
    | .mk _ bytes .. => be16 bytes 0 = port ∧ be32 bytes 8 = u32 (isn + 1)

def synDone (syn : Exchange) (opened : State) : State :=
  let tcp := (sendSegment 0x02 [] 0 (netPolls syn.wait) syn.delivered opened).2
  { tcp with sndNxt := u32 (tcp.sndNxt + 1) }

def Reached (front : List (Option Arrival)) (tcp : State) : Prop :=
  ∀ earlier, earlier <+: front → earlier ≠ [] → earlier ≠ front →
    (earlier.foldl (fun current poll => netPoll poll current) tcp).gotSynack = false

/-- The connection stays in ST_SYN_SENT until an answer has come, and the call succeeds only with
one. -/
structure OnlyAnswered (answers : Arrival → Prop) (opened : State) (syn : Exchange) (ok : Bool) : Prop where
  sending : ∀ front, front <+: syn.wait →
    (netPolls front opened).phase = .synSent ∨ ∃ arrival ∈ front, answers arrival
  waiting : syn.delivered = true → ∀ front, front <+: syn.polls.take 400 → Reached front (synDone syn opened) →
    (front.foldl (fun current poll => netPoll poll current) (synDone syn opened)).phase = .synSent ∨
      ∃ arrival ∈ syn.wait ++ received front, answers arrival
  success : ok = true → ∃ arrival ∈ syn.wait ++ received (syn.polls.take 400), answers arrival

def heard (syn : Exchange) : List Arrival :=
  if syn.delivered then syn.wait ++ received (syn.polls.take 400) else syn.wait

theorem synDone_fields (syn : Exchange) (opened : State) :
    (synDone syn opened).phase = (netPolls syn.wait opened).phase ∧
      (synDone syn opened).remoteIp = (netPolls syn.wait opened).remoteIp ∧
      (synDone syn opened).localPort = (netPolls syn.wait opened).localPort ∧
      (synDone syn opened).listening = (netPolls syn.wait opened).listening ∧
      (synDone syn opened).gotSynack = (netPolls syn.wait opened).gotSynack := by
  unfold synDone sendSegment
  simp only [length_nil, Nat.add_zero, show ¬1400 < 20 by omega, if_false]
  split <;> exact ⟨rfl, rfl, rfl, rfl, rfl⟩

theorem waiting_phase {opened : State} (opening : Opening ip localPort opened) (syn : Exchange)
    (front : List (Option Arrival)) :
    ((∀ arrival ∈ syn.wait ++ received front, accepted ip localPort arrival = false) →
      Opening ip localPort (front.foldl (fun current poll => netPoll poll current) (synDone syn opened))) ∧
    ((∃ arrival ∈ syn.wait ++ received front, accepted ip localPort arrival = true) →
      Entered (front.foldl (fun current poll => netPoll poll current) (synDone syn opened))) := by
  obtain ⟨phase, remote, port, listening, synack⟩ := synDone_fields syn opened
  obtain ⟨ignored, enters⟩ := netPolls_opening opening syn.wait
  rw [settle_eq]
  by_cases early : ∃ arrival ∈ syn.wait, accepted ip localPort arrival = true
  · have entered := enters early
    have later := later_netPolls (received front) (synDone syn opened)
    refine ⟨fun none => ?_, fun _ => ⟨later.phase (phase ▸ entered.phase), later.gotSynack (synack.trans entered.gotSynack)⟩⟩
    obtain ⟨arrival, inside, passes⟩ := early
    exact absurd (none arrival (mem_append_left _ inside)) (by simp [passes])
  · have nothing : ∀ arrival ∈ syn.wait, accepted ip localPort arrival = false := by
      intro arrival inside
      by_contra passes
      exact early ⟨arrival, inside, by simpa using passes⟩
    rw [ignored nothing] at phase remote port listening synack
    have still : Opening ip localPort (synDone syn opened) :=
      ⟨phase.trans opening.phase, remote.trans opening.remoteIp, port.trans opening.localPort,
        listening.trans opening.listening, synack.trans opening.gotSynack⟩
    obtain ⟨ignored, enters⟩ := netPolls_opening still (received front)
    refine ⟨fun none => ?_, ?_⟩
    · rw [ignored fun arrival inside => none arrival (mem_append_right _ inside)]
      exact still
    · rintro ⟨arrival, inside, passes⟩
      rcases mem_append.mp inside with inside | inside
      · exact absurd (nothing arrival inside) (by simp [passes])
      · exact enters ⟨arrival, inside, passes⟩

theorem awaitSynack_succeeds {polls : List (Option Arrival)} (ok : (awaitSynack polls tcp).1 = true) :
    ∃ front, front <+: polls ∧ (front.foldl (fun current poll => netPoll poll current) tcp).gotSynack = true := by
  induction polls generalizing tcp with
  | nil => cases ok
  | cons poll rest ih =>
    unfold awaitSynack at ok
    dsimp only at ok
    split at ok
    next got => exact ⟨[poll], prefix_append [poll] rest, got⟩
    next =>
      obtain ⟨front, ahead, got⟩ := ih ok
      exact ⟨poll :: front, (prefix_cons_inj poll).mpr ahead, got⟩

theorem find_of_front {p : Arrival → Bool} {front all : List Arrival} (ahead : front <+: all)
    (found : ∃ arrival ∈ front, p arrival = true) : ∃ arrival ∈ front, all.find? p = some arrival := by
  obtain ⟨rest, rfl⟩ := ahead
  obtain ⟨first, is⟩ := Option.isSome_iff_exists.mp (find?_isSome.mpr found)
  exact ⟨first, mem_of_find?_eq_some is, by rw [find?_append, is]; rfl⟩

section Call

variable {answers : Arrival → Prop} {opened : State} {syn : Exchange}

theorem onlyAnswered_of_first (opening : Opening ip localPort opened)
    (first : ∀ arrival, (heard syn).find? (accepted ip localPort) = some arrival → answers arrival) {ok : Bool}
    (result : ok = true → syn.delivered = true ∧ (awaitSynack (syn.polls.take 400) (synDone syn opened)).1 = true) :
    OnlyAnswered answers opened syn ok := by
  have answered {front : List Arrival} (ahead : front <+: heard syn)
      (found : ∃ arrival ∈ front, accepted ip localPort arrival = true) : ∃ arrival ∈ front, answers arrival := by
    obtain ⟨arrival, inside, is⟩ := find_of_front ahead found
    exact ⟨arrival, inside, first arrival is⟩
  have decide_ (list : List Arrival) : (∀ arrival ∈ list, accepted ip localPort arrival = false) ∨
      ∃ arrival ∈ list, accepted ip localPort arrival = true := by
    by_cases found : ∃ arrival ∈ list, accepted ip localPort arrival = true
    · exact .inr found
    · refine .inl fun arrival inside => ?_
      by_contra passes
      exact found ⟨arrival, inside, by simpa using passes⟩
  have polled (sent : syn.delivered = true) {front : List (Option Arrival)} (ahead : front <+: syn.polls.take 400) :
      syn.wait ++ received front <+: heard syn := by
    rw [heard, if_pos sent]
    exact (prefix_append_right_inj _).mpr (ahead.filterMap id)
  constructor
  case sending =>
    intro front ahead
    have whole : front <+: heard syn := by
      unfold heard
      split
      · exact ahead.trans (prefix_append _ _)
      · exact ahead
    rcases decide_ front with none | found
    · rw [(netPolls_opening opening front).1 none]
      exact .inl opening.phase
    · exact .inr (answered whole found)
  case waiting =>
    intro sent front ahead _
    rcases decide_ (syn.wait ++ received front) with none | found
    · exact .inl ((waiting_phase opening syn front).1 none).phase
    · exact .inr (answered (polled sent ahead) found)
  case success =>
    intro succeeded
    obtain ⟨sent, returned⟩ := result succeeded
    obtain ⟨front, ahead, got⟩ := awaitSynack_succeeds returned
    rcases decide_ (syn.wait ++ received front) with none | found
    · have closed := ((waiting_phase opening syn front).1 none).gotSynack
      rw [closed] at got
      cases got
    · obtain ⟨arrival, inside, is⟩ := answered (polled sent ahead) found
      refine ⟨arrival, ?_, is⟩
      exact ((prefix_append_right_inj _).mpr (ahead.filterMap id)).subset inside

theorem first_of_onlyAnswered (opening : Opening ip localPort opened)
    (implied : ∀ arrival, answers arrival → accepted ip localPort arrival = true) {ok : Bool}
    (only : OnlyAnswered answers opened syn ok) {arrival : Arrival}
    (is : (heard syn).find? (accepted ip localPort) = some arrival) : answers arrival := by
  have passes : accepted ip localPort arrival = true := find?_some is
  -- The segments before it are not let through, so they are no answers.
  have unique {before : List Arrival} (none : ∀ other ∈ before, accepted ip localPort other = false)
      (answered : ∃ other ∈ before ++ [arrival], answers other) : answers arrival := by
    obtain ⟨other, inside, holds⟩ := answered
    rcases mem_append.mp inside with inside | inside
    · exact absurd (implied other holds) (by simp [none other inside])
    · rwa [mem_singleton.mp inside] at holds
  have split_find {list : List Arrival} (found : list.find? (accepted ip localPort) = some arrival) :
      ∃ before after, list = before ++ arrival :: after ∧ ∀ other ∈ before, accepted ip localPort other = false := by
    obtain ⟨_, before, after, split, none⟩ := find?_eq_some_iff_append.mp found
    exact ⟨before, after, split, fun other inside => by simpa using none other inside⟩
  by_cases early : (syn.wait.find? (accepted ip localPort)).isSome
  · obtain ⟨first, found⟩ := Option.isSome_iff_exists.mp early
    obtain rfl : first = arrival := by
      unfold heard at is
      split at is
      · rw [find?_append, found] at is
        exact Option.some.inj is
      · exact Option.some.inj (found.symm.trans is)
    obtain ⟨before, after, split, none⟩ := split_find found
    have ahead : before ++ [first] <+: syn.wait := by
      rw [split]
      exact ⟨after, by simp⟩
    have entered := (netPolls_opening opening (before ++ [first])).2 ⟨first, by simp, passes⟩
    exact unique none ((only.sending _ ahead).resolve_left entered.phase)
  · have quiet : syn.wait.find? (accepted ip localPort) = none := by simpa using early
    have waited : ∀ other ∈ syn.wait, accepted ip localPort other = false := by
      intro other inside
      simpa using find?_eq_none.mp quiet other inside
    unfold heard at is
    split at is
    next sent =>
      rw [find?_append, quiet, Option.none_or] at is
      obtain ⟨before, after, split, none⟩ := split_find is
      obtain ⟨front, back, polls, fronts, backs⟩ := filterMap_eq_append_iff.mp split
      obtain ⟨blank, _, rest, shape, blanks, rfl, _⟩ := filterMap_eq_cons_iff.mp backs
      generalize led : front ++ blank = lead
      have nothing : blank.filterMap id = [] := filterMap_eq_nil_iff.mpr blanks
      have leads : received lead = before := by rw [← led, received, filterMap_append, fronts, nothing, append_nil]
      have all : received (lead ++ [some arrival]) = before ++ [arrival] := by
        rw [received, filterMap_append]
        exact congrArg (· ++ [arrival]) leads
      have ahead : lead ++ [some arrival] <+: syn.polls.take 400 := by
        rw [polls, shape, ← led]
        exact ⟨rest, by simp⟩
      have unanswered : ∀ other ∈ syn.wait ++ before, accepted ip localPort other = false := fun other inside =>
        (mem_append.mp inside).elim (waited other) (none other)
      have reached : Reached (lead ++ [some arrival]) (synDone syn opened) := by
        intro earlier inside _ different
        have shorter := (prefix_concat_iff.mp inside).resolve_left different
        refine ((waiting_phase opening syn earlier).1 fun other member => unanswered other ?_).gotSynack
        rw [← leads]
        exact ((prefix_append_right_inj _).mpr (shorter.filterMap id)).subset member
      have entered := (waiting_phase opening syn (lead ++ [some arrival])).2 ⟨arrival, by simp [all], passes⟩
      have answered := (only.waiting sent _ ahead reached).resolve_left entered.phase
      rw [all, ← append_assoc] at answered
      exact unique unanswered answered
    next => exact absurd is (by simp [quiet])

end Call

theorem later_settle (count : Nat) (polls : List (Option Arrival)) (tcp : State) : Later tcp (settle count polls tcp) := by
  rw [settle, settle_eq]
  exact later_netPolls _ _

theorem tcpClose_seeds (fin reset : Exchange) (polls : List (Option Arrival)) (tcp : State) :
    (tcpClose fin reset polls tcp).nextPort = tcp.nextPort ∧ (tcpClose fin reset polls tcp).isnSeed = tcp.isnSeed := by
  have sends (flags : Nat) (wait : List Arrival) (delivered : Bool) (tcp : State) :
      Later tcp (sendSegment flags [] tcp.rcvNxt (netPolls wait) delivered tcp).2 := by
    have later := later_netPolls wait tcp
    unfold sendSegment
    split
    · exact .refl tcp
    · dsimp only
      split
      · exact ⟨later.nextPort, later.isnSeed, later.listening, later.gotSynack, later.phase⟩
      · exact later
  unfold tcpClose
  dsimp only
  split
  · have first := sends 0x11 fin.wait fin.delivered tcp
    generalize (sendSegment 0x11 [] tcp.rcvNxt (netPolls fin.wait) fin.delivered tcp).2 = sentFin at first ⊢
    have second := later_settle 40 fin.polls { sentFin with sndNxt := u32 (sentFin.sndNxt + 1) }
    generalize settle 40 fin.polls { sentFin with sndNxt := u32 (sentFin.sndNxt + 1) } = settled at second ⊢
    have third := sends 0x14 reset.wait reset.delivered settled
    generalize (sendSegment 0x14 [] settled.rcvNxt (netPolls reset.wait) reset.delivered settled).2 = sentReset at third ⊢
    have fourth := later_settle 15 reset.polls sentReset
    generalize settle 15 reset.polls sentReset = quiet at fourth ⊢
    have last := later_settle 25 polls
      { quiet with phase := .closed, rxData := [], gotFin := false, gotSynack := false, listening := false }
    have port := fourth.nextPort.trans (third.nextPort.trans (second.nextPort.trans first.nextPort))
    have seed := fourth.isnSeed.trans (third.isnSeed.trans (second.isnSeed.trans first.isnSeed))
    exact ⟨last.nextPort.trans port, last.isnSeed.trans seed⟩
  · have last := later_settle 25 polls
      { tcp with phase := .closed, rxData := [], gotFin := false, gotSynack := false, listening := false }
    exact ⟨last.nextPort, last.isnSeed⟩

def openedBy (ip : List UInt8) (port : Nat) (fin reset : Exchange) (closing polls : List (Option Arrival)) (tcp : State) :
    State :=
  Net.openConnection ip port (settle 20 polls (if tcp.phase = .closed then tcp else tcpClose fin reset closing tcp))

/-- The number that the next connection starts with. -/
def nextNumber (tcp : State) : Nat := u32 (tcp.isnSeed * 1103515245 + 12345)

section Connect

variable (ip : List UInt8) (port : Nat) (fin reset : Exchange) (closing polls : List (Option Arrival)) (tcp : State)

theorem openedBy_opening : Opening ip tcp.nextPort (openedBy ip port fin reset closing polls tcp) ∧
    synNumber (openedBy ip port fin reset closing polls tcp) = nextNumber tcp := by
  have seeds : (settle 20 polls (if tcp.phase = .closed then tcp else tcpClose fin reset closing tcp)).nextPort =
        tcp.nextPort ∧
      (settle 20 polls (if tcp.phase = .closed then tcp else tcpClose fin reset closing tcp)).isnSeed = tcp.isnSeed := by
    have later := later_settle 20 polls (if tcp.phase = .closed then tcp else tcpClose fin reset closing tcp)
    rw [later.nextPort, later.isnSeed]
    split
    · exact ⟨rfl, rfl⟩
    · exact tcpClose_seeds fin reset closing tcp
  unfold openedBy
  generalize settle 20 polls (if tcp.phase = .closed then tcp else tcpClose fin reset closing tcp) = settled at seeds ⊢
  refine ⟨⟨rfl, rfl, seeds.1, rfl, rfl⟩, ?_⟩
  have number : (Net.openConnection ip port settled).sndNxt = nextNumber tcp := by
    rw [nextNumber, ← seeds.2]
    rfl
  rw [synNumber_eq (by rw [number]; exact Nat.mod_lt _ (by omega)), number]

theorem tcpConnect_result (syn : Exchange) : (tcpConnect ip port fin reset closing polls syn tcp).1 = true →
    syn.delivered = true ∧
      (awaitSynack (syn.polls.take 400) (synDone syn (openedBy ip port fin reset closing polls tcp))).1 = true := by
  intro ok
  unfold tcpConnect tcpConnectClosed at ok
  unfold openedBy
  generalize settle 20 polls (if tcp.phase = .closed then tcp else tcpClose fin reset closing tcp) = settled at ok ⊢
  change (let sent := sendSegment 0x02 [] 0 (netPolls syn.wait) syn.delivered (Net.openConnection ip port settled)
    if sent.1 then awaitSynack (syn.polls.take 400) { sent.2 with sndNxt := u32 (sent.2.sndNxt + 1) }
    else (false, { sent.2 with phase := .closed })).1 = true at ok
  unfold synDone
  have outcome : (sendSegment 0x02 [] 0 (netPolls syn.wait) syn.delivered (Net.openConnection ip port settled)).1 =
      syn.delivered := by
    unfold sendSegment
    simp only [length_nil, Nat.add_zero, show ¬1400 < 20 by omega, if_false]
    cases syn.delivered <;> rfl
  generalize sendSegment 0x02 [] 0 (netPolls syn.wait) syn.delivered (Net.openConnection ip port settled) = sending
    at ok outcome ⊢
  obtain ⟨sent, after⟩ := sending
  dsimp only at ok outcome
  subst outcome
  cases went : syn.delivered with
  | false => simp [went] at ok
  | true => exact ⟨rfl, by simpa [went] using ok⟩

/-- `tcp_connect` waits for the answer to its SYN exactly when the first segment let through is
that answer. -/
theorem connect_only_answered (syn : Exchange) :
    OnlyAnswered (Answers ip tcp.nextPort port (synNumber (openedBy ip port fin reset closing polls tcp)))
        (openedBy ip port fin reset closing polls tcp) syn (tcpConnect ip port fin reset closing polls syn tcp).1 ↔
      ∀ arrival, (heard syn).find? (accepted ip tcp.nextPort) = some arrival →
        Answers ip tcp.nextPort port (nextNumber tcp) arrival := by
  obtain ⟨opening, number⟩ := openedBy_opening ip port fin reset closing polls tcp
  rw [number]
  constructor
  · intro only arrival is
    exact first_of_onlyAnswered opening (fun _ answer => answer.1) only is
  · intro first
    exact onlyAnswered_of_first opening first (tcpConnect_result ip port fin reset closing polls tcp syn)

end Connect

def strayAnswer : Arrival :=
  .mk [10, 0, 2, 100] (toBe16 9999 ++ toBe16 42000 ++ toBe32 7 ++ toBe32 0 ++ [0x50, 0x12, 0, 0, 0, 0, 0, 0]) [] true [] true

def quiet : Exchange := ⟨[], true, []⟩

/-- A connection to port 80 is taken as open on a segment from another port that acknowledges
nothing. -/
theorem stray_answer_connects :
    (tcpConnect [10, 0, 2, 100] 80 quiet quiet [] [] ⟨[], true, [some strayAnswer]⟩ Net.initialTcp).1 = true ∧
    (tcpConnect [10, 0, 2, 100] 80 quiet quiet [] [] ⟨[], true, [some strayAnswer]⟩ Net.initialTcp).2.phase = .est ∧
    ∀ arrival ∈ heard ⟨[], true, [some strayAnswer]⟩, ¬Answers [10, 0, 2, 100] Net.initialTcp.nextPort 80
      (synNumber (openedBy [10, 0, 2, 100] 80 quiet quiet [] [] Net.initialTcp)) arrival := by
  refine ⟨by decide +kernel, by decide +kernel, fun arrival inside answer => ?_⟩
  obtain rfl : arrival = strayAnswer := by simpa [heard, received] using inside
  have port : be16 (toBe16 9999 ++ toBe16 42000 ++ toBe32 7 ++ toBe32 0 ++ [0x50, 0x12, 0, 0, 0, 0, 0, 0]) 0 = 80 :=
    answer.2.1
  exact absurd port (by decide)

end GWKernel.Tcp
