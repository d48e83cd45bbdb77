import GWKernel.Mount
import GWKernel.Proofs.FatConsistency
import GWKernel.Proofs.NvmeQueue

/-! What `fat_mount` does to the disks. It reads them, except that the self-test of
`nvme_init` overwrites sector 200 of the NVMe disk. -/

namespace GWKernel.Ata
open Lib

variable {disk : Nat → Mem}

theorem inbStatus_leaves : Preserves (State.disk · = disk) inbStatus := fun _ kept => kept

theorem ioWait_leaves : Preserves (State.disk · = disk) ioWait := fun _ kept => kept

theorem pollBsy_leaves (count : Nat) : Preserves (State.disk · = disk) (pollBsy count) := by
  induction count with
  | zero => exact .pure _
  | succ count ih => exact inbStatus_leaves.bind fun _ => .branch (.pure _) ih

theorem pollDrq_leaves (count : Nat) : Preserves (State.disk · = disk) (pollDrq count) := by
  induction count with
  | zero => exact .pure _
  | succ count ih => exact inbStatus_leaves.bind fun _ => .branch (.pure _) (.branch (.pure _) ih)

theorem readWords_leaves (count : Nat) : Preserves (State.disk · = disk) (readWords count) := by
  induction count with
  | zero => exact .pure _
  | succ count ih => exact Preserves.bind (fun _ kept => kept) fun _ => ih.bind fun _ => .pure _

theorem ataInit_leaves : Preserves (State.disk · = disk) ataInit := by
  refine Preserves.bind (fun _ kept => kept) fun _ => ioWait_leaves.bind fun _ => ?_
  refine Preserves.bind (fun _ kept => kept) fun _ => Preserves.bind (fun _ kept => kept) fun _ => Preserves.bind (fun _ kept => kept) fun _ => ?_
  refine Preserves.bind (fun _ kept => kept) fun _ => Preserves.bind (fun _ kept => kept) fun _ => ioWait_leaves.bind fun _ => ?_
  refine inbStatus_leaves.bind fun _ => .branch (.pure _) (inbStatus_leaves.bind fun _ => .branch (.pure _) ?_)
  refine (pollBsy_leaves _).bind fun _ => .branch ((pollDrq_leaves _).bind fun _ => .branch ?_ (.pure _)) (.pure _)
  exact (readWords_leaves 256).bind fun _ => Preserves.bind (fun _ kept => kept) fun _ => .pure _

end GWKernel.Ata

namespace GWKernel.Ahci
open Lib

variable {issued : List Command}

theorem rr_leaves : Preserves (State.issued · = issued) rr := fun _ kept => kept

theorem waitClear_leaves (bits count : Nat) : Preserves (State.issued · = issued) (waitClear bits count) := by
  induction count with
  | zero => exact .pure _
  | succ count ih => exact rr_leaves.bind fun _ => .branch (.pure _) ih

theorem setUpPort_leaves (page : Nat) : Preserves (State.issued · = issued) (setUpPort page) := by
  have stops : Preserves (State.issued · = issued) stopCmd := rr_leaves.bind fun _ => waitClear_leaves _ _
  have starts : Preserves (State.issued · = issued) startCmd :=
    (waitClear_leaves _ _).bind fun _ => rr_leaves.bind fun _ => rr_leaves.bind fun _ => .pure _
  refine stops.bind fun _ => .branch (.pure _) (Preserves.bind (fun _ kept => kept) fun _ => starts.bind fun _ => ?_)
  exact Preserves.bind (fun _ kept => kept) fun _ => .pure _

theorem probePorts_leaves (implemented page : Nat) (ports : List Nat) :
    Preserves (State.issued · = issued) (probePorts implemented page ports) := by
  induction ports with
  | nil => exact .pure _
  | cons p rest ih =>
    refine .branch (rr_leaves.bind fun _ => .branch (rr_leaves.bind fun _ => .branch ?_ ih) ih) ih
    exact setUpPort_leaves page

/-- Setting up a port gives no command. -/
theorem ahciInit_leaves (found mapped : Bool) (page : Nat) : Preserves (State.issued · = issued) (ahciInit found mapped page) := by
  refine Preserves.bind (fun _ kept => kept) fun _ => .branch (rr_leaves.bind fun _ => rr_leaves.bind fun _ => ?_) (.pure _)
  exact probePorts_leaves _ _ _

end GWKernel.Ahci

namespace GWKernel.Fat
open Lib

variable {σ : Type} {read : Nat → StateM σ Bool} {sector : StateM σ Mem}

theorem haveMbr_preserves {holds : σ → Prop} (reads : ∀ lba, Preserves holds (read lba)) (looks : Preserves holds sector)
    (vol : Volume) : Preserves holds (haveMbr read sector vol) := by
  have part : ∀ mbr, Preserves holds (partitionLba read sector mbr) := fun mbr =>
    .branch ((reads 1).bind fun _ => .branch (looks.bind fun _ => (reads _).bind fun _ =>
      .branch (looks.bind fun _ => .pure _) (.pure _)) (.pure _)) (.pure _)
  refine looks.bind fun mbr => .branch (.pure _) ((part mbr).bind fun lba => ?_)
  cases lba with
  | none => exact .pure _
  | some lba => exact (reads lba).bind fun _ => .branch (looks.bind fun _ => .branch (.pure _) (.pure _)) (.pure _)

end GWKernel.Fat

namespace GWKernel.Mount
open Lib List
open Nvme (Sqe Delays)
open Fat (Volume)

variable {hw : Hardware} {nvme : Nvme.State} {machine : Machine} {disk : Nat → Mem} {write : Sqe} {done : Bool}

/-- Commands that leave the disk alone. -/
def Reads (cmds : List Sqe) : Prop := ∀ cmd ∈ cmds, Nvme.opcode cmd = 0x02

def stamped (disk : Nat → Mem) : Nat → Mem := fun sector =>
  if sector = 200 then fun offset => if offset < 512 then pattern.getD offset 0 else disk sector offset
  else disk sector

/-- The command of the self-test waits with its data, and nothing has been posted. -/
structure Waiting (write : Sqe) (disk : Nat → Mem) (nvme : Nvme.State) : Prop where
  present : nvme.present = true
  pending : ∃ rest, nvme.pending = write :: rest ∧ Reads rest
  same : nvme.disk = disk
  data : ∀ offset < 512, nvme.bounce offset = pattern.getD offset 0
  space : (nvme.cqTail + 1) % Nvme.qdepth ≠ nvme.cqDoorbell
  nothing : nvme.cq nvme.head / 2 ^ 16 % 2 ≠ nvme.phase

/-- The command of the self-test has been completed, and was done or not; the others are reads. -/
structure Tested (disk : Nat → Mem) (done : Bool) (nvme : Nvme.State) : Prop where
  reads : Reads nvme.pending
  disk : nvme.disk = if done then stamped disk else disk

structure WritesPattern (cmd : Sqe) : Prop where
  opcode : Nvme.opcode cmd = 0x01
  lba : Nvme.startLba cmd = 200
  blocks : Nvme.blocks cmd = 1

theorem transfer_disk_of_read {cmd : Sqe} (read : Nvme.opcode cmd = 0x02) (nvme : Nvme.State) :
    (Nvme.transfer cmd nvme).disk = nvme.disk := by
  unfold Nvme.transfer
  rw [read]
  rfl

theorem transfer_disk_of_write {cmd : Sqe} (writes : WritesPattern cmd)
    (data : ∀ offset < 512, nvme.bounce offset = pattern.getD offset 0) :
    (Nvme.transfer cmd nvme).disk = stamped nvme.disk := by
  unfold Nvme.transfer
  rw [writes.opcode, writes.lba, writes.blocks, if_pos rfl]
  funext sector offset
  unfold stamped Nvme.toDisk
  by_cases here : sector = 200
  · subst here
    simp only [Nat.le_refl, true_and, Nat.lt_succ_self, if_true, Nat.sub_self, Nat.mul_zero, Nat.zero_add]
    split
    next inside => exact data offset inside
    next => rfl
  · dsimp only
    rw [if_neg (by omega), if_neg here]

theorem Waiting.complete (writes : WritesPattern write) (waiting : Waiting write disk nvme) (status : Nat) :
    Tested disk (status % 2 ^ 15 == 0) (Nvme.complete nvme status) := by
  obtain ⟨rest, pending, reads⟩ := waiting.pending
  rw [Nvme.complete_eq pending waiting.space]
  refine ⟨reads, ?_⟩
  unfold Nvme.finished
  dsimp only
  by_cases fine : status % 2 ^ 15 = 0
  · rw [if_pos fine, transfer_disk_of_write writes waiting.data, waiting.same, if_pos (by simpa using fine)]
  · rw [if_neg fine, waiting.same, if_neg (by simpa using fine)]

theorem Tested.complete (tested : Tested disk done nvme) (status : Nat) : Tested disk done (Nvme.complete nvme status) := by
  rcases Nvme.complete_cases nvme status with same | ⟨cmd, rest, pending, _, is⟩
  · rwa [same]
  have reads := tested.reads
  rw [pending] at reads
  rw [is]
  refine ⟨fun other member => reads other (mem_cons_of_mem _ member), ?_⟩
  unfold Nvme.finished
  dsimp only
  split
  · rw [transfer_disk_of_read (reads cmd mem_cons_self), tested.disk]
  · exact tested.disk

theorem Tested.completes (tested : Tested disk done nvme) (statuses : List Nat) :
    Tested disk done (statuses.foldl Nvme.complete nvme) := by
  induction statuses generalizing nvme with
  | nil => exact tested
  | cons status rest ih => exact ih (tested.complete status)

theorem Tested.pollLoop {delays : Delays} {spins : Nat} (tested : Tested disk done nvme) :
    Tested disk done (Nvme.pollLoop delays spins nvme).2 := by
  induction spins generalizing nvme with
  | zero => exact tested
  | succ spins ih =>
    have next := tested.completes (delays spins)
    unfold Nvme.pollLoop
    dsimp only
    split
    · exact ⟨next.reads, next.disk⟩
    · exact ih next

theorem reads_enqueue {cmds : List Sqe} (reads : Reads cmds) (bounce lba nextCid : Nat) :
    Reads (cmds ++ [Nvme.stamp (Nvme.rwSqe bounce lba 1 false) nextCid]) := by
  intro cmd member
  rcases mem_append.mp member with old | new
  · exact reads cmd old
  · rw [mem_singleton.mp new]
    exact (Nvme.rw_fields bounce lba 1 nextCid false (by decide)).1

theorem nvmeRead_state (delays : Delays) (bounce lba : Nat) (present : nvme.present = true) :
    (Nvme.nvmeRead delays bounce lba 1 nvme).2 =
      (Nvme.pollLoop delays Nvme.spinLimit (Nvme.enqueue (Nvme.rwSqe bounce lba 1 false) nvme)).2 := by
  unfold Nvme.nvmeRead Nvme.submit Nvme.pollCq
  rw [if_neg (by simp [present])]
  generalize Nvme.pollLoop delays Nvme.spinLimit (Nvme.enqueue (Nvme.rwSqe bounce lba 1 false) nvme) = outcome
  obtain ⟨_ | _ | _, state⟩ := outcome <;> rfl

theorem Tested.read {delays : Delays} {bounce lba : Nat} (tested : Tested disk done nvme) :
    Tested disk done (Nvme.nvmeRead delays bounce lba 1 nvme).2 := by
  cases present : nvme.present with
  | false =>
    unfold Nvme.nvmeRead
    rw [if_pos (.inl present)]
    exact tested
  | true =>
    rw [nvmeRead_state delays bounce lba present]
    refine Tested.pollLoop ⟨?_, tested.disk⟩
    rw [Nvme.enqueue_pending]
    exact reads_enqueue tested.reads bounce lba nvme.nextCid

/-- The statuses that the controller posts while `poll_cq` has that many readings left, in their
order. -/
def posted (delays : Delays) : Nat → List Nat
  | 0 => []
  | spins + 1 => delays spins ++ posted delays spins

/-- The first status posted is that of the self-test's command. -/
theorem Waiting.pollLoop {delays : Delays} {spins : Nat} (writes : WritesPattern write) (waiting : Waiting write disk nvme) :
    match (posted delays spins).head? with
    | none => Nvme.pollLoop delays spins nvme = (.timeout, nvme)
    | some status => Tested disk (status % 2 ^ 15 == 0) (Nvme.pollLoop delays spins nvme).2 := by
  induction spins with
  | zero => rfl
  | succ spins ih =>
    unfold posted Nvme.pollLoop
    cases statuses : delays spins with
    | nil =>
      dsimp only [foldl_nil, nil_append]
      rw [if_neg waiting.nothing]
      exact ih
    | cons status rest =>
      have tested := (waiting.complete writes status).completes rest
      dsimp only [foldl_cons, cons_append, head?_cons]
      split
      · exact ⟨tested.reads, tested.disk⟩
      · exact tested.pollLoop

theorem Waiting.read {delays : Delays} {bounce lba : Nat} (writes : WritesPattern write)
    (waiting : Waiting write disk nvme) :
    match (posted delays Nvme.spinLimit).head? with
    | none => (Nvme.nvmeRead delays bounce lba 1 nvme).1 = none ∧ (Nvme.nvmeRead delays bounce lba 1 nvme).2.disk = disk
    | some status => Tested disk (status % 2 ^ 15 == 0) (Nvme.nvmeRead delays bounce lba 1 nvme).2 := by
  have queued : Waiting write disk (Nvme.enqueue (Nvme.rwSqe bounce lba 1 false) nvme) := by
    obtain ⟨rest, pending, reads⟩ := waiting.pending
    refine ⟨waiting.present, ⟨_, ?_, reads_enqueue reads bounce lba nvme.nextCid⟩, waiting.same, waiting.data,
      waiting.space, waiting.nothing⟩
    rw [Nvme.enqueue_pending, pending]
    rfl
  have polled := @Waiting.pollLoop _ _ _ delays Nvme.spinLimit writes queued
  have state := nvmeRead_state delays bounce lba waiting.present
  cases first : (posted delays Nvme.spinLimit).head? with
  | none =>
    rw [first] at polled
    dsimp only at polled ⊢
    refine ⟨?_, by rw [state, polled]; exact queued.same⟩
    unfold Nvme.nvmeRead Nvme.submit Nvme.pollCq
    rw [if_neg (by simp [waiting.present]), polled]
  | some status =>
    rw [first] at polled
    dsimp only at polled ⊢
    rwa [state]

/-- The timing of the command after the next one. -/
def Machine.nextTiming (machine : Machine) : Delays := machine.delays.tail.headD fun _ => []

/-- The first status that the controller posts while `nvme_init` polls for its write, or else while
the first sector is read, tells whether the write is done. -/
def Machine.stores (machine : Machine) : Bool :=
  ((posted machine.timing Nvme.spinLimit ++ posted machine.nextTiming Nvme.spinLimit).head?.map (· % 2 ^ 15)) == some 0

/-- From where on the disks are read only. -/
structure Reading (start now : Machine) (done : Bool) : Prop where
  reads : now.useNvme = true → Reads now.nvme.pending
  nvme : now.nvme.disk = if done then stamped start.nvme.disk else start.nvme.disk
  ahci : now.ahci = start.ahci
  ata : now.ata.disk = start.ata.disk

variable {start : Machine}

section
variable (reading : Reading start machine done) (hw : Hardware)
include reading

theorem Reading.readAbs (lba : Nat) : Reading start (readAbs hw lba machine).2 done := by
  unfold Mount.readAbs
  split
  next onNvme =>
    unfold nvmeReadSector
    have tested : Tested start.nvme.disk done machine.nvme := ⟨reading.reads onNvme, reading.nvme⟩
    have step := @Tested.read _ _ _ machine.timing hw.bounce lba tested
    generalize Nvme.nvmeRead machine.timing hw.bounce lba 1 machine.nvme = outcome at step ⊢
    obtain ⟨bytes, nvme⟩ := outcome
    cases bytes with
    | none => exact ⟨fun _ => step.reads, step.disk, reading.ahci, reading.ata⟩
    | some bytes => exact ⟨fun _ => step.reads, step.disk, reading.ahci, reading.ata⟩
  next =>
    repeat' split
    all_goals exact ⟨reading.reads, reading.nvme, reading.ahci, reading.ata⟩

theorem Reading.haveMbr (vol : Volume) : Reading start (haveMbr hw vol machine).2 done := by
  have reads (lba : Nat) : Preserves (Reading start · done) (Mount.readAbs hw lba) := fun _ kept => kept.readAbs hw lba
  exact Fat.haveMbr_preserves reads (fun _ kept => kept) vol machine reading

theorem Reading.mountAta (vol : Volume) : Reading start (mountAta hw vol machine).2 done := by
  have keeps := Ata.ataInit_leaves machine.ata rfl
  unfold Mount.mountAta
  generalize Ata.ataInit machine.ata = outcome at keeps ⊢
  obtain ⟨up, ata⟩ := outcome
  have ready : Reading start { machine with ata := ata } done :=
    ⟨reading.reads, reading.nvme, reading.ahci, Eq.trans keeps reading.ata⟩
  dsimp only
  split
  next =>
    have first := ready.readAbs hw 0
    split
    · exact first.haveMbr hw vol
    · exact first
  next => exact ready

omit reading in
/-- `ahci_init` gives no command, so the disk stays. -/
theorem ahciInit_keeps (machine : Machine) :
    ∃ port, ahciInit hw machine = ((ahciInit hw machine).1, { machine with port := port }) := by
  have none := Ahci.ahciInit_leaves hw.ahciFound hw.ahciMapped hw.ahciPage machine.port rfl
  unfold ahciInit
  generalize Ahci.ahciInit hw.ahciFound hw.ahciMapped hw.ahciPage machine.port = outcome at none ⊢
  obtain ⟨up, port⟩ := outcome
  dsimp only at none ⊢
  rw [none, drop_length, foldl_nil]
  exact ⟨port, rfl⟩

theorem Reading.mountAhci (vol : Volume) : Reading start (mountAhci hw vol machine).2 done := by
  have ready : Reading start (ahciInit hw machine).2 done := by
    obtain ⟨port, is⟩ := ahciInit_keeps hw machine
    rw [is]
    exact ⟨reading.reads, reading.nvme, reading.ahci, reading.ata⟩
  unfold Mount.mountAhci
  generalize ahciInit hw machine = outcome at ready ⊢
  obtain ⟨up, machine⟩ := outcome
  dsimp only at ready ⊢
  split
  next =>
    have chosen : Reading start { machine with useAhci := true } done := ⟨ready.reads, ready.nvme, ready.ahci, ready.ata⟩
    have first := chosen.readAbs hw 0
    generalize Mount.readAbs hw 0 { machine with useAhci := true } = outcome at first ⊢
    obtain ⟨ok, middle⟩ := outcome
    have dropped : Reading start { middle with useAhci := false } done :=
      ⟨first.reads, first.nvme, first.ahci, first.ata⟩
    cases ok with
    | true => exact first.haveMbr hw vol
    | false => exact dropped.mountAta hw vol
  next => exact ready.mountAta hw vol

/-- What follows the first reading from NVMe. -/
theorem Reading.goesOn (vol : Volume) (ok : Bool) : Reading start
    (if ok then Mount.haveMbr hw vol machine else Mount.mountAhci hw vol { machine with useNvme := false }).2 done := by
  have dropped : Reading start { machine with useNvme := false } done := ⟨nofun, reading.nvme, reading.ahci, reading.ata⟩
  cases ok with
  | true => exact reading.haveMbr hw vol
  | false => exact dropped.mountAhci hw vol

end

def backendDisk (machine : Machine) : Nat → Mem :=
  if machine.useAhci then machine.ahci else fun lba => machine.ata.disk (lba % 2 ^ 28)

def backendReadable (hw : Hardware) (machine : Machine) : Nat → Bool :=
  if machine.useAhci then hw.ahciReadable else hw.ataReadable

structure Serves (hw : Hardware) (machine : Machine) (disk : Nat → Mem) (readable : Nat → Bool) : Prop where
  noNvme : machine.useNvme = false
  disk : backendDisk machine = disk
  readable : backendReadable hw machine = readable

variable {readable : Nat → Bool} {vol : Volume} {written : List Nat}

/-- The backend's machine, and the disk of the file system's model with the same sector buffer. -/
def Before (hw : Hardware) (disk : Nat → Mem) (readable : Nat → Bool) (written : List Nat) (machine : Machine)
    (medium : Fat.Medium) : Prop :=
  Serves hw machine disk readable ∧ medium = ⟨disk, machine.sector, written⟩

section
variable (serves : Serves hw machine disk readable)
include serves

end

end GWKernel.Mount
