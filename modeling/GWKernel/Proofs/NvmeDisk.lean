import GWKernel.Proofs.NvmeQueue

/-! `nvme_read` and `nvme_write` make a disk of the controller: as long as no command is
given up before it completes, every run of the two is a run of a plain disk. -/

namespace GWKernel.Nvme
open Lib List

variable {state after : State} {delays : Delays} {sqe cmd : Sqe} {result : Poll} {taken : Nat}

theorem completes_idle (idle : state.pending = []) (statuses : List Nat) : statuses.foldl complete state = state := by
  have nothing (status : Nat) : complete state status = state := by
    unfold complete
    rw [idle]
  induction statuses with
  | nil => rfl
  | cons status rest ih => rw [foldl_cons, nothing, ih]

theorem pollLoop_transfers {spins : Nat} (inv : Inv state taken) (all : state.log.length = taken)
    (only : state.pending = [cmd]) (ran : pollLoop delays spins state = (result, after)) (timely : result ≠ .timeout) :
    after.disk = (if result = .ok then transfer cmd state else state).disk ∧
      after.bounce = (if result = .ok then transfer cmd state else state).bounce := by
  induction spins with
  | zero =>
    cases ran
    exact absurd rfl timely
  | succ spins ih =>
    unfold pollLoop at ran
    cases posts : delays spins with
    | nil =>
      have waits : state.cq state.head / 2 ^ 16 % 2 ≠ state.phase := by
        rw [inv.head, inv.phase, ne_eq, tag_eq_iff, inv.ring.ready_iff, entries_length]
        omega
      rw [posts] at ran
      dsimp only [foldl_nil] at ran
      rw [if_neg waits] at ran
      exact ih ran
    | cons status rest =>
      have space : (state.cqTail + 1) % qdepth ≠ state.cqDoorbell := by
        rw [inv.cqTail, inv.doorbell, all]
        unfold qdepth
        omega
      have done := (complete_keeps inv status).1
      rw [posts, foldl_cons, complete_eq only space] at ran
      rw [complete_eq only space] at done
      rw [completes_idle (show (finished state cmd [] (status % 2 ^ 15)).pending = [] from rfl)] at ran
      generalize is : finished state cmd [] (status % 2 ^ 15) = middle at ran done
      have log : middle.log = state.log ++ [(cmd, status % 2 ^ 15)] := by rw [← is]; rfl
      have ready : middle.cq middle.head / 2 ^ 16 % 2 = middle.phase := by
        rw [done.head, done.phase, tag_eq_iff, done.ring.ready_iff, entries_length, log, length_append]
        exact Nat.lt_succ_of_le (Nat.le_of_eq all.symm)
      have first : middle.log[taken]? = some (cmd, status % 2 ^ 15) := by
        rw [log, ← all, getElem?_concat_length]
      dsimp only at ran
      rw [if_pos ready, done.status first] at ran
      have disk : middle.disk = if status % 2 ^ 15 = 0 then (transfer cmd state).disk else state.disk := by rw [← is]; rfl
      have data : middle.bounce = if status % 2 ^ 15 = 0 then (transfer cmd state).bounce else state.bounce := by
        rw [← is]
        rfl
      by_cases fine : status % 2 ^ 15 = 0
      · rw [if_pos fine] at ran disk data
        cases ran
        exact ⟨disk, data⟩
      · rw [if_neg fine] at ran disk data
        cases ran
        exact ⟨disk, data⟩

theorem Settled.transfers (settled : Settled state taken) (ran : submit delays sqe state = (result, after))
    (timely : result ≠ .timeout) :
    after.disk = (if result = .ok then transfer (stamp sqe state.nextCid) (enqueue sqe state) else state).disk ∧
      after.bounce = (if result = .ok then transfer (stamp sqe state.nextCid) (enqueue sqe state) else state).bounce := by
  have only := enqueue_pending sqe state
  rw [settled.done, nil_append] at only
  obtain ⟨disk, bounce⟩ := pollLoop_transfers (settled.inv.enqueue sqe) settled.all only ran timely
  rw [disk, bounce]
  split <;> exact ⟨rfl, rfl⟩

inductive Call where
  | read (lba count : Nat) (bytes : Option (List UInt8))
  | write (lba count : Nat) (buf : List UInt8) (ok : Bool)

/-- A call whose command is not given up. -/
inductive Runs (state : State) : Call → State → Prop where
  | read {delays : Delays} {bounce lba count : Nat} {bytes : Option (List UInt8)} {after : State}
      (ran : nvmeRead delays bounce lba count state = (bytes, after))
      (timely : (submit delays (rwSqe bounce lba count false) state).1 ≠ .timeout) : Runs state (.read lba count bytes) after
  | write {delays : Delays} {bounce lba count : Nat} {buf : List UInt8} {ok : Bool} {after : State}
      (whole : buf.length = 512 * count) (ran : nvmeWrite delays bounce lba count buf state = (ok, after))
      (timely : (submit delays (rwSqe bounce lba count true)
        { state with bounce := state.bounce.copy 0 (buf.take (512 * count)) }).1 ≠ .timeout) :
      Runs state (.write lba count buf ok) after

def load (disk : Nat → Mem) (lba count : Nat) : List UInt8 :=
  (List.range (512 * count)).map fun offset => disk (lba + offset / 512) (offset % 512)

def store (lba : Nat) (buf : List UInt8) (disk : Nat → Mem) : Nat → Mem := fun sector offset =>
  if lba ≤ sector ∧ offset < 512 ∧ 512 * (sector - lba) + offset < buf.length then
    buf.getD (512 * (sector - lba) + offset) 0
  else disk sector offset

/-- A plain disk: calls that fail leave it as it is. -/
inductive DiskStep (disk : Nat → Mem) : Call → (Nat → Mem) → Prop where
  | read (lba count : Nat) : DiskStep disk (.read lba count (some (load disk lba count))) disk
  | write (lba count : Nat) (buf : List UInt8) : DiskStep disk (.write lba count buf true) (store lba buf disk)
  | readFailed (lba count : Nat) : DiskStep disk (.read lba count none) disk
  | writeFailed (lba count : Nat) (buf : List UInt8) : DiskStep disk (.write lba count buf false) disk

theorem Settled.with_bounce (settled : Settled state taken) (bounce : Mem) : Settled { state with bounce := bounce } taken :=
  ⟨⟨settled.inv.ring, settled.inv.head, settled.inv.phase, settled.inv.doorbell, settled.inv.cqTail,
    settled.inv.cqPhase, settled.inv.statuses⟩, settled.all, settled.done⟩

theorem toDisk_copy {lba count : Nat} {buf : List UInt8} (whole : buf.length = 512 * count) (bounce : Mem)
    (disk : Nat → Mem) : toDisk (bounce.copy 0 (buf.take (512 * count))) lba count disk = store lba buf disk := by
  funext sector offset
  rw [take_of_length_le (Nat.le_of_eq whole)]
  unfold toDisk store
  by_cases named : lba ≤ sector ∧ sector < lba + count
  · rw [if_pos named]
    by_cases inside : offset < 512
    · have place : 512 * (sector - lba) + offset < buf.length := by omega
      rw [if_pos inside, if_pos ⟨named.1, inside, place⟩]
      exact if_pos ⟨Nat.zero_le _, by omega⟩
    · rw [if_neg inside, if_neg (fun both => inside both.2.1)]
  · rw [if_neg named, if_neg (by omega)]

theorem Settled.runs {call : Call} (settled : Settled state taken) (runs : Runs state call after) :
    (∃ more, Settled after more) ∧ DiskStep state.disk call after.disk := by
  cases runs with
  | @read delays bounce lba count bytes _ ran timely =>
    unfold nvmeRead at ran
    split at ran
    next =>
      cases ran
      exact ⟨⟨_, settled⟩, .readFailed lba count⟩
    next allowed =>
      generalize outcome : submit delays (rwSqe bounce lba count false) state = submitted at ran timely
      obtain ⟨result, middle⟩ := submitted
      obtain ⟨_, _, _, next⟩ := settled.after_submit outcome timely
      obtain ⟨disk, data⟩ := settled.transfers outcome timely
      obtain ⟨opcode, first, length⟩ := rw_fields bounce lba count state.nextCid false (by omega)
      have kept : middle.disk = state.disk := by
        rw [disk]
        split
        · rw [transfer, opcode]
          rfl
        · rfl
      cases result with
      | ok =>
        have read : middle.bounce.slice 0 (512 * count) = load state.disk lba count := by
          rw [data, if_pos rfl, transfer, opcode, first, length]
          refine map_congr_left fun offset member => ?_
          rw [Nat.zero_add]
          exact if_pos (mem_range.mp member)
        cases ran
        rw [read, kept]
        exact ⟨⟨_, next⟩, .read lba count⟩
      | failed =>
        cases ran
        rw [kept]
        exact ⟨⟨_, next⟩, .readFailed lba count⟩
      | timeout => exact absurd rfl timely
  | @write delays bounce lba count buf ok _ whole ran timely =>
    unfold nvmeWrite at ran
    split at ran
    next =>
      cases ran
      exact ⟨⟨_, settled⟩, .writeFailed lba count buf⟩
    next allowed =>
      dsimp only at ran
      have ready := settled.with_bounce (state.bounce.copy 0 (buf.take (512 * count)))
      generalize outcome : submit delays (rwSqe bounce lba count true) _ = submitted at ran timely
      obtain ⟨result, middle⟩ := submitted
      obtain ⟨_, _, _, next⟩ := ready.after_submit outcome timely
      obtain ⟨disk, _⟩ := ready.transfers outcome timely
      obtain ⟨opcode, first, length⟩ := rw_fields bounce lba count state.nextCid true (by omega)
      cases result with
      | ok =>
        have written : middle.disk = store lba buf state.disk := by
          rw [disk, if_pos rfl, transfer, opcode, first, length]
          exact toDisk_copy whole state.bounce state.disk
        cases ran
        rw [written]
        exact ⟨⟨_, next⟩, .write lba count buf⟩
      | failed =>
        cases ran
        rw [disk]
        exact ⟨⟨_, next⟩, .writeFailed lba count buf⟩
      | timeout => exact absurd rfl timely

theorem nvme_run_is_disk_run {start final : State} {calls : List Call} (fresh : Fresh start)
    (run : Run Runs start calls final) : Run DiskStep start.disk calls final.disk := by
  suffices ∀ taken, Settled start taken → Run DiskStep start.disk calls final.disk from this 0 fresh.settled
  clear fresh
  induction run with
  | done => exact fun _ _ => .done _
  | next runs _ ih =>
    intro taken settled
    obtain ⟨⟨more, later⟩, step⟩ := settled.runs runs
    exact .next step (ih more later)

theorem nvme_run_is_disk_run_sample : ∃ calls final, calls =
      [.write 5 1 (List.replicate 512 7) true, .read 5 1 (some (List.replicate 512 7))] ∧
    Run Runs sampleQueue calls final ∧ Run DiskStep sampleQueue.disk calls final.disk := by
  have fresh : Fresh sampleQueue := ⟨fun _ _ => rfl, rfl, rfl, rfl, rfl, rfl, rfl, rfl⟩
  have wrote : (nvmeWrite promptly 0 5 1 (List.replicate 512 7) sampleQueue).1 = true := by decide +kernel
  have read : (nvmeRead promptly 0 5 1 (nvmeWrite promptly 0 5 1 (List.replicate 512 7) sampleQueue).2).1 =
      some (List.replicate 512 7) := by decide +kernel
  have run := Run.next (Runs.write (by decide +kernel) (Prod.ext wrote rfl) (by decide +kernel))
    (Run.next (Runs.read (Prod.ext read rfl) (by decide +kernel)) (Run.done _))
  exact ⟨_, _, rfl, run, nvme_run_is_disk_run fresh run⟩

end GWKernel.Nvme
