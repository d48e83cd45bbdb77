import GWKernel.Lib.PhaseRing
import GWKernel.Lib.Run
import GWKernel.Nvme

/-! The queue pair of the NVMe driver. `poll_cq` does not look at the command identifier, so every
submission that timed out leaves the driver one completion behind for good. -/

namespace GWKernel.Nvme
open Lib List

variable {state after : State} {taken : Nat} {delays : Delays} {sqe : Sqe}

def tag (dw3 : Nat) : Bool := dw3 / 2 ^ 16 % 2 == 1

def entries (log : List (Sqe × Nat)) : List Nat :=
  log.mapIdx fun index done => dword3 (cid done.1) (lap qdepth index).toNat done.2

def commands (state : State) : List Sqe := state.log.map Prod.fst ++ state.pending

/-- The driver has taken the first `taken` completions. -/
structure Inv (state : State) (taken : Nat) : Prop where
  ring : Ring qdepth tag state.cq (entries state.log) taken
  head : state.head = taken % qdepth
  phase : state.phase = (lap qdepth taken).toNat
  doorbell : state.cqDoorbell = taken % qdepth
  cqTail : state.cqTail = state.log.length % qdepth
  cqPhase : state.cqPhase = (lap qdepth state.log.length).toNat
  statuses : ∀ done ∈ state.log, done.2 < 2 ^ 15

theorem entries_length (log : List (Sqe × Nat)) : (entries log).length = log.length := by simp [entries]

theorem cid_lt (cmd : Sqe) : cid cmd < 2 ^ 16 := Nat.mod_lt _ (by decide)

theorem dword3_phase {status : Nat} (cmd : Sqe) (bit : Bool) : dword3 (cid cmd) bit.toNat status / 2 ^ 16 % 2 = bit.toNat := by
  have small := cid_lt cmd
  unfold dword3
  cases bit <;> simp only [Bool.toNat_true, Bool.toNat_false] <;> omega

theorem dword3_status {status : Nat} (cmd : Sqe) (bit : Bool) (small : status < 2 ^ 15) :
    dword3 (cid cmd) bit.toNat status / 2 ^ 17 % 2 ^ 15 = status := by
  have low := cid_lt cmd
  unfold dword3
  cases bit <;> simp only [Bool.toNat_true, Bool.toNat_false] <;> omega

theorem tag_dword3 {status : Nat} (cmd : Sqe) (bit : Bool) : tag (dword3 (cid cmd) bit.toNat status) = bit := by
  unfold tag
  rw [dword3_phase]
  cases bit <;> rfl

theorem tag_eq_iff (dw3 : Nat) (bit : Bool) : dw3 / 2 ^ 16 % 2 = bit.toNat ↔ tag dw3 = bit := by
  unfold tag
  have small := Nat.mod_lt (dw3 / 2 ^ 16) (show 0 < 2 by decide)
  cases bit with
  | false =>
    rw [Bool.toNat_false, beq_eq_false_iff_ne]
    omega
  | true => rw [Bool.toNat_true, beq_iff_eq]

theorem phase_succ (n : Nat) : (if (n + 1) % qdepth = 0 then 1 - (lap qdepth n).toNat else (lap qdepth n).toNat) =
    (lap qdepth (n + 1)).toNat := by
  rcases next_cell n (show 0 < qdepth by decide) with ⟨_, wraps, other⟩ | ⟨_, next, same⟩
  · rw [wraps, other, if_pos rfl]
    cases lap qdepth n <;> rfl
  · rw [next, same, if_neg (Nat.succ_ne_zero _)]

theorem transfer_eq (cmd : Sqe) (state : State) : transfer cmd state =
    { state with disk := (transfer cmd state).disk, bounce := (transfer cmd state).bounce } := by
  unfold transfer
  split
  next => rfl
  next => split <;> rfl

def finished (state : State) (cmd : Sqe) (rest : List Sqe) (status : Nat) : State :=
  { state with
    pending := rest
    cq := Function.update state.cq state.cqTail (dword3 (cid cmd) state.cqPhase status)
    cqTail := (state.cqTail + 1) % qdepth
    cqPhase := if (state.cqTail + 1) % qdepth = 0 then 1 - state.cqPhase else state.cqPhase
    log := state.log ++ [(cmd, status)]
    disk := if status = 0 then (transfer cmd state).disk else state.disk
    bounce := if status = 0 then (transfer cmd state).bounce else state.bounce }

theorem complete_eq {cmd : Sqe} {rest : List Sqe} (pending : state.pending = cmd :: rest)
    (space : (state.cqTail + 1) % qdepth ≠ state.cqDoorbell) (status : Nat) :
    complete state status = finished state cmd rest (status % 2 ^ 15) := by
  unfold complete finished
  rw [pending]
  dsimp only
  rw [if_neg space]
  by_cases fine : status % 2 ^ 15 = 0
  · simp only [fine, if_true]
    rw [transfer_eq cmd state]
  · simp only [fine, if_false]

theorem complete_cases (state : State) (status : Nat) : complete state status = state ∨
    ∃ cmd rest, state.pending = cmd :: rest ∧ (state.cqTail + 1) % qdepth ≠ state.cqDoorbell ∧
      complete state status = finished state cmd rest (status % 2 ^ 15) := by
  cases pending : state.pending with
  | nil =>
    left
    unfold complete
    rw [pending]
  | cons cmd rest =>
    by_cases full : (state.cqTail + 1) % qdepth = state.cqDoorbell
    · left
      unfold complete
      rw [pending]
      exact if_pos full
    · exact .inr ⟨cmd, rest, rfl, full, complete_eq pending full status⟩

structure Advances (before after : State) : Prop where
  commands : commands after = commands before
  log : before.log <+: after.log

theorem complete_keeps (inv : Inv state taken) (status : Nat) :
    Inv (complete state status) taken ∧ Advances state (complete state status) := by
  rcases complete_cases state status with same | ⟨cmd, rest, pending, space, is⟩
  · rw [same]
    exact ⟨inv, rfl, prefix_rfl⟩
  rw [is]
  unfold finished
  have posted : entries (state.log ++ [(cmd, status % 2 ^ 15)]) =
      entries state.log ++ [dword3 (cid cmd) state.cqPhase (status % 2 ^ 15)] := by
    simp [entries, mapIdx_append, inv.cqPhase]
  refine ⟨⟨?_, inv.head, inv.phase, inv.doorbell, ?_, ?_, fun done member => ?_⟩, ?_, prefix_append _ _⟩
  · have behind := inv.ring.behind
    have near := inv.ring.room
    have free : (entries state.log).length + 1 - taken < qdepth := by
      rw [inv.cqTail, inv.doorbell] at space
      rw [entries_length] at behind near ⊢
      unfold qdepth at *
      omega
    have marked : tag (dword3 (cid cmd) state.cqPhase (status % 2 ^ 15)) = lap qdepth (entries state.log).length := by
      rw [inv.cqPhase, tag_dword3, entries_length]
    have ring := inv.ring.post marked free
    rw [entries_length, ← inv.cqTail, ← posted] at ring
    exact ring
  · rw [length_append, length_singleton, inv.cqTail]
    exact Nat.mod_add_mod _ _ _
  · rw [length_append, length_singleton, inv.cqTail, inv.cqPhase, Nat.mod_add_mod]
    exact phase_succ _
  · rcases mem_append.mp member with old | new
    · exact inv.statuses done old
    · rw [mem_singleton.mp new]
      exact Nat.mod_lt _ (by decide)
  · simp [commands, pending]

theorem completes_keep (inv : Inv state taken) (statuses : List Nat) :
    Inv (statuses.foldl complete state) taken ∧ Advances state (statuses.foldl complete state) := by
  induction statuses generalizing state with
  | nil => exact ⟨inv, rfl, prefix_rfl⟩
  | cons status rest ih =>
    obtain ⟨next, first⟩ := complete_keeps inv status
    obtain ⟨last, others⟩ := ih next
    exact ⟨last, others.commands.trans first.commands, first.log.trans others.log⟩

theorem Inv.status {cmd : Sqe} {status : Nat} (inv : Inv state taken) (done : state.log[taken]? = some (cmd, status)) :
    state.cq state.head / 2 ^ 17 % 2 ^ 15 = status := by
  obtain ⟨inside, _⟩ := List.getElem?_eq_some_iff.mp done
  obtain ⟨entry, _⟩ := inv.ring.take (by rwa [entries_length])
  simp only [entries, getElem?_mapIdx, done, Option.map_some] at entry
  rw [inv.head, ← Option.some.inj entry]
  exact dword3_status cmd _ (inv.statuses _ (mem_of_getElem? done))

def Poll.of (status : Nat) : Poll := if status = 0 then .ok else .failed status

theorem Poll.status_of_ok {status : Nat} (ok : .ok = Poll.of status) : status = 0 := by
  by_contra failed
  unfold Poll.of at ok
  rw [if_neg failed] at ok
  cases ok

inductive Polled (after : State) (taken : Nat) : Poll → Prop where
  | timeout (inv : Inv after taken) : Polled after taken .timeout
  | took {cmd : Sqe} {status : Nat} (done : after.log[taken]? = some (cmd, status)) (inv : Inv after (taken + 1)) :
      Polled after taken (Poll.of status)

theorem pollLoop_polled {spins : Nat} {result : Poll} (inv : Inv state taken)
    (ran : pollLoop delays spins state = (result, after)) : Polled after taken result ∧ Advances state after := by
  induction spins generalizing state with
  | zero =>
    cases ran
    exact ⟨.timeout inv, rfl, prefix_rfl⟩
  | succ spins ih =>
    unfold pollLoop at ran
    obtain ⟨now, advances⟩ := completes_keep inv (delays spins)
    generalize (delays spins).foldl complete state = middle at ran now advances
    dsimp only at ran
    split at ran
    next ready =>
      rw [now.head, now.phase, tag_eq_iff, now.ring.ready_iff, entries_length] at ready
      obtain ⟨_, next⟩ := now.ring.take (by rwa [entries_length])
      obtain ⟨⟨cmd, status⟩, done⟩ : ∃ done, middle.log[taken]? = some done := ⟨_, getElem?_eq_getElem ready⟩
      rw [now.status done, now.head] at ran
      cases ran
      refine ⟨.took done ⟨next, Nat.mod_add_mod _ _ _, ?_, Nat.mod_add_mod _ _ _, now.cqTail, now.cqPhase,
        now.statuses⟩, advances.commands, advances.log⟩
      dsimp only
      rw [now.phase, Nat.mod_add_mod]
      exact phase_succ _
    next =>
      obtain ⟨polled, rest⟩ := ih now ran
      exact ⟨polled, rest.commands.trans advances.commands, advances.log.trans rest.log⟩

theorem enqueue_pending (sqe : Sqe) (state : State) :
    (enqueue sqe state).pending = state.pending ++ [stamp sqe state.nextCid] := by
  simp [enqueue]

theorem Inv.enqueue (inv : Inv state taken) (sqe : Sqe) : Inv (enqueue sqe state) taken :=
  ⟨inv.ring, inv.head, inv.phase, inv.doorbell, inv.cqTail, inv.cqPhase, inv.statuses⟩

theorem submit_polled {result : Poll} (inv : Inv state taken) (ran : submit delays sqe state = (result, after)) :
    Polled after taken result ∧ commands after = commands state ++ [stamp sqe state.nextCid] ∧
      state.log <+: after.log := by
  obtain ⟨polled, advances⟩ := pollLoop_polled (inv.enqueue sqe) ran
  refine ⟨polled, advances.commands.trans ?_, advances.log⟩
  unfold commands
  rw [enqueue_pending, append_assoc]
  rfl

inductive Event where
  | submit (delays : Delays) (sqe : Sqe) (result : Poll)
  | idle (status : Nat)

def Step (state : State) (event : Event) (after : State) : Prop :=
  match event with
  | .submit delays sqe result => submit delays sqe state = (result, after)
  | .idle status => complete state status = after

def Event.Timely : Event → Prop
  | .submit _ _ result => result ≠ .timeout
  | .idle _ => True

def submits : List Event → Nat
  | [] => 0
  | .submit .. :: rest => submits rest + 1
  | .idle _ :: rest => submits rest

/-- A queue pair as `nvme_init` sets it up. -/
structure Fresh (state : State) : Prop where
  cq : ∀ cell < qdepth, state.cq cell = 0
  head : state.head = 0
  phase : state.phase = 1
  pending : state.pending = []
  cqTail : state.cqTail = 0
  cqPhase : state.cqPhase = 1
  cqDoorbell : state.cqDoorbell = 0
  log : state.log = []

structure Settled (state : State) (count : Nat) : Prop where
  inv : Inv state count
  all : state.log.length = count
  done : state.pending = []

theorem Fresh.settled (fresh : Fresh state) : Settled state 0 := by
  refine ⟨⟨?_, fresh.head, fresh.phase, fresh.cqDoorbell, ?_, ?_, ?_⟩, by rw [fresh.log]; rfl, fresh.pending⟩
  · rw [fresh.log]
    exact Ring.start (by decide) fun cell inside => by rw [fresh.cq cell inside]; rfl
  · rw [fresh.log, fresh.cqTail]
    rfl
  · rw [fresh.log, fresh.cqPhase]
    rfl
  · rw [fresh.log]
    exact fun done member => absurd member not_mem_nil

theorem Settled.after_submit {count : Nat} {result : Poll} (settled : Settled state count)
    (ran : submit delays sqe state = (result, after)) (timely : result ≠ .timeout) :
    ∃ status, result = Poll.of status ∧ after.log = state.log ++ [(stamp sqe state.nextCid, status)] ∧
      Settled after (count + 1) := by
  obtain ⟨polled, all, grown⟩ := submit_polled settled.inv ran
  cases polled with
  | timeout => exact absurd rfl timely
  | @took cmd status done inv =>
    obtain ⟨more, is⟩ := grown
    have length := settled.all
    unfold commands at all
    rw [← is, settled.done, append_nil, map_append, append_assoc, append_cancel_left_eq] at all
    rw [← is, getElem?_append_right (by omega), length, Nat.sub_self] at done
    -- The log has grown by this command alone.
    obtain ⟨first, rest, rfl⟩ := exists_cons_of_ne_nil (show more ≠ [] by rintro rfl; cases done)
    cases done
    rw [map_cons, cons_append, List.cons.injEq, append_eq_nil_iff] at all
    obtain ⟨rfl, none, idle⟩ := all
    obtain rfl := map_eq_nil_iff.mp none
    exact ⟨status, rfl, is.symm, inv, by rw [← is]; simp [length], idle⟩

theorem Step.settled {count : Nat} {event : Event} (settled : Settled state count) (step : Step state event after)
    (timely : event.Timely) : Settled after (count + submits [event]) := by
  cases event with
  | submit delays sqe result =>
    obtain ⟨_, _, _, next⟩ := settled.after_submit step timely
    exact next
  | idle status =>
    cases step
    have nothing : complete state status = state := by
      unfold complete
      rw [settled.done]
    rw [nothing]
    exact settled

theorem run_settled {count : Nat} {events : List Event} (run : Run Step state events after)
    (settled : Settled state count) (timely : ∀ event ∈ events, event.Timely) :
    Settled after (count + submits events) := by
  induction run generalizing count with
  | done => exact settled
  | @next _ _ _ event events moves _ ih =>
    have one := moves.settled settled (timely event mem_cons_self)
    have rest := ih one fun event member => timely event (mem_cons_of_mem _ member)
    rw [Nat.add_assoc, show submits [event] + submits events = submits (event :: events) by
      cases event <;> simp [submits, Nat.add_comm]] at rest
    exact rest

/-- As long as no submission has timed out, `submit` returns 0 only when the command of this very
call was completed with status 0. -/
theorem submit_completes {start : State} {events : List Event} (fresh : Fresh start) (run : Run Step start events state)
    (timely : ∀ event ∈ events, event.Timely) (ran : submit delays sqe state = (.ok, after)) :
    after.log[submits events]? = some (stamp sqe state.nextCid, 0) := by
  have settled := run_settled run fresh.settled timely
  rw [Nat.zero_add] at settled
  obtain ⟨status, result, log, _⟩ := settled.after_submit ran (by decide)
  rw [log, Poll.status_of_ok result, ← settled.all, getElem?_concat_length]

def promptly : Delays := fun _ => [0]

def never : Delays := fun _ => []

def sampleQueue : State where
  present := true
  sq := fun _ _ => 0
  cq := fun _ => 0
  tail := 0
  head := 0
  phase := 1
  nextCid := 1
  bounce := fun _ => 0
  pending := []
  cqTail := 0
  cqPhase := 1
  cqDoorbell := 0
  log := []
  disk := fun lba _ => UInt8.ofNat lba

theorem submit_completes_promptly : ∃ state after,
    Run Step sampleQueue [.submit promptly (rwSqe 0 5 1 false) .ok] state ∧
    submit promptly (rwSqe 0 7 1 false) state = (.ok, after) ∧
    after.log[1]? = some (stamp (rwSqe 0 7 1 false) state.nextCid, 0) := by
  have first : (submit promptly (rwSqe 0 5 1 false) sampleQueue).1 = .ok := by decide +kernel
  have second : (submit promptly (rwSqe 0 7 1 false) (submit promptly (rwSqe 0 5 1 false) sampleQueue).2).1 = .ok := by
    decide +kernel
  have fresh : Fresh sampleQueue := ⟨fun _ _ => rfl, rfl, rfl, rfl, rfl, rfl, rfl, rfl⟩
  have run : Run Step sampleQueue [.submit promptly (rwSqe 0 5 1 false) .ok]
      (submit promptly (rwSqe 0 5 1 false) sampleQueue).2 := .next (Prod.ext first rfl) (.done _)
  have timely : ∀ event ∈ [Event.submit promptly (rwSqe 0 5 1 false) .ok], event.Timely := by
    intro event member
    rw [mem_singleton.mp member]
    exact Poll.noConfusion
  have ran : submit promptly (rwSqe 0 7 1 false) (submit promptly (rwSqe 0 5 1 false) sampleQueue).2 =
      (.ok, (submit promptly (rwSqe 0 7 1 false) (submit promptly (rwSqe 0 5 1 false) sampleQueue).2).2) :=
    Prod.ext second rfl
  exact ⟨_, _, run, ran, submit_completes fresh run timely ran⟩

theorem pollLoop_never (spins : Nat) (waits : state.cq state.head / 2 ^ 16 % 2 ≠ state.phase) :
    pollLoop never spins state = (.timeout, state) := by
  induction spins with
  | zero => rfl
  | succ spins ih =>
    unfold pollLoop
    dsimp only [never, foldl_nil]
    rw [if_neg waits]
    exact ih

theorem submit_takes_late_completion : ∃ state after,
    Run Step sampleQueue [.submit never (rwSqe 0 5 1 false) .timeout] state ∧
    submit promptly (rwSqe 0 7 1 false) state = (.ok, after) ∧ after.log[1]? = none ∧
    (nvmeRead promptly 0 7 1 state).1.bind List.head? = some 5 := by
  have late : submit never (rwSqe 0 5 1 false) sampleQueue = (.timeout, enqueue (rwSqe 0 5 1 false) sampleQueue) := by
    unfold submit pollCq
    exact pollLoop_never spinLimit (by decide +kernel)
  have next : (submit promptly (rwSqe 0 7 1 false) (enqueue (rwSqe 0 5 1 false) sampleQueue)).1 = .ok := by decide +kernel
  have log : (submit promptly (rwSqe 0 7 1 false) (enqueue (rwSqe 0 5 1 false) sampleQueue)).2.log.length = 1 := by
    decide +kernel
  exact ⟨_, _, .next late (.done _), Prod.ext next rfl, getElem?_eq_none (Nat.le_of_eq log), by decide +kernel⟩

theorem rw_fields (bounce lba count nextCid : Nat) (isWrite : Bool) (allowed : 0 < count ∧ count ≤ 8) :
    opcode (stamp (rwSqe bounce lba count isWrite) nextCid) = (if isWrite then 0x01 else 0x02) ∧
      startLba (stamp (rwSqe bounce lba count isWrite) nextCid) = lba ∧
      blocks (stamp (rwSqe bounce lba count isWrite) nextCid) = count := by
  unfold opcode startLba blocks stamp
  rw [Function.update_self, Function.update_of_ne (by decide), Function.update_of_ne (by decide),
    Function.update_of_ne (by decide)]
  refine ⟨?_, ?_, ?_⟩
  · change ((if isWrite then 0x01 else 0x02) % 2 ^ 16 + nextCid * 2 ^ 16) % 256 = _
    split <;> omega
  · change lba % 2 ^ 32 + lba / 2 ^ 32 * 2 ^ 32 = lba
    omega
  · change (count - 1) % 2 ^ 16 + 1 = count
    omega

end GWKernel.Nvme
