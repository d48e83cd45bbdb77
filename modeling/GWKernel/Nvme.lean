import GWKernel.Lib.Memory

/-! The NVMe driver (kernel/drivers/nvme.c) with a controller that completes commands in the order
of their submission, each after any delay. Of a completion entry only dword 3 is read. -/

namespace GWKernel.Nvme
open Lib

def qdepth : Nat := 16

@[irreducible] def spinLimit : Nat := 20000000

abbrev Sqe := Nat → Nat

/-- A queue pair: the variables of the driver, the memory of the queues, and the controller with
its disk: the commands yet to complete, where it posts next, the last completion doorbell, and the
commands completed with their statuses. -/
structure State where
  present : Bool
  sq : Nat → Sqe
  cq : Nat → Nat
  tail : Nat
  head : Nat
  phase : Nat
  nextCid : Nat
  bounce : Mem
  pending : List Sqe
  cqTail : Nat
  cqPhase : Nat
  cqDoorbell : Nat
  log : List (Sqe × Nat)
  disk : Nat → Mem

def opcode (cmd : Sqe) : Nat := cmd 0 % 256

def cid (cmd : Sqe) : Nat := cmd 0 / 2 ^ 16 % 2 ^ 16

def startLba (cmd : Sqe) : Nat := cmd 10 + cmd 11 * 2 ^ 32

def blocks (cmd : Sqe) : Nat := cmd 12 % 2 ^ 16 + 1

/-- The sectors of a write command, taken from the buffer. -/
def toDisk (bounce : Mem) (lba count : Nat) (disk : Nat → Mem) : Nat → Mem := fun sector =>
  if lba ≤ sector ∧ sector < lba + count then
    fun offset => if offset < 512 then bounce (512 * (sector - lba) + offset) else disk sector offset
  else disk sector

/-- The bytes of a read command, put into the buffer. -/
def fromDisk (disk : Nat → Mem) (lba count : Nat) (bounce : Mem) : Mem := fun address =>
  if address < 512 * count then disk (lba + address / 512) (address % 512) else bounce address

/-- The transfer of a command that succeeds. -/
def transfer (cmd : Sqe) (state : State) : State :=
  if opcode cmd = 0x01 then { state with disk := toDisk state.bounce (startLba cmd) (blocks cmd) state.disk }
  else if opcode cmd = 0x02 then { state with bounce := fromDisk state.disk (startLba cmd) (blocks cmd) state.bounce }
  else state

def dword3 (cid phase status : Nat) : Nat := cid + phase * 2 ^ 16 + status * 2 ^ 17

/-- The next command is completed, unless there is none or the completion queue is full. -/
def complete (state : State) (status : Nat) : State :=
  match state.pending with
  | [] => state
  | cmd :: rest =>
    if (state.cqTail + 1) % qdepth = state.cqDoorbell then state
    else
      let status := status % 2 ^ 15
      let state := if status = 0 then transfer cmd state else state
      let next := (state.cqTail + 1) % qdepth
      { state with
        pending := rest
        cq := Function.update state.cq state.cqTail (dword3 (cid cmd) state.cqPhase status)
        cqTail := next
        cqPhase := if next = 0 then 1 - state.cqPhase else state.cqPhase
        log := state.log ++ [(cmd, status)] }

/-- What `poll_cq` returns: 0, -1 with the status, or -2. -/
inductive Poll where
  | ok
  | failed (status : Nat)
  | timeout
deriving DecidableEq, Repr

/-- The statuses of the commands completed before each reading of the entry, by the readings left.
-/
abbrev Delays := Nat → List Nat

/-- The loop of `poll_cq`. -/
def pollLoop (delays : Delays) : Nat → State → Poll × State
  | 0, state => (.timeout, state)
  | spins + 1, state =>
    let state := (delays spins).foldl complete state
    let dw3 := state.cq state.head
    if dw3 / 2 ^ 16 % 2 = state.phase then
      let st := dw3 / 2 ^ 17 % 2 ^ 15
      let head := (state.head + 1) % qdepth
      let state := { state with
        head := head
        phase := if head = 0 then 1 - state.phase else state.phase
        cqDoorbell := head }
      (if st = 0 then .ok else .failed st, state)
    else pollLoop delays spins state

def pollCq (delays : Delays) (state : State) : Poll × State := pollLoop delays spinLimit state

/-- The command as `submit` stores it, with its identifier. -/
def stamp (sqe : Sqe) (nextCid : Nat) : Sqe := Function.update sqe 0 (sqe 0 % 2 ^ 16 + nextCid * 2 ^ 16)

/-- `submit` up to the doorbell, on which the controller takes the new entry. -/
def enqueue (sqe : Sqe) (state : State) : State :=
  let t := state.tail
  let state := { state with
    sq := Function.update state.sq t (stamp sqe state.nextCid)
    nextCid := if (state.nextCid + 1) % 2 ^ 16 = 0 then 1 else (state.nextCid + 1) % 2 ^ 16
    tail := (t + 1) % qdepth }
  { state with pending := state.pending ++ [state.sq t] }

/-- `submit`: what `poll_cq` returned. The C function returns 0 for `ok` and -1 for the
others. -/
def submit (delays : Delays) (sqe : Sqe) (state : State) : Poll × State := pollCq delays (enqueue sqe state)

/-- The submission entry of `do_rw`; `bounce` is the address of the bounce buffer. -/
def rwSqe (bounce lba count : Nat) (isWrite : Bool) : Sqe := fun dword =>
  match dword with
  | 0 => if isWrite then 0x01 else 0x02
  | 1 => 1
  | 6 => bounce % 2 ^ 32
  | 7 => bounce / 2 ^ 32
  | 10 => lba % 2 ^ 32
  | 11 => lba / 2 ^ 32
  | 12 => count - 1
  | _ => 0

/-- `nvme_read`: the bytes put into the buffer, nothing for -1. -/
def nvmeRead (delays : Delays) (bounce lba count : Nat) (state : State) : Option (List UInt8) × State :=
  if state.present = false ∨ count = 0 ∨ 8 < count then (none, state)
  else
    match submit delays (rwSqe bounce lba count false) state with
    | (.ok, state) => (some (state.bounce.slice 0 (512 * count)), state)
    | (_, state) => (none, state)

/-- `nvme_write` of the `512 * count` bytes in a buffer. -/
def nvmeWrite (delays : Delays) (bounce lba count : Nat) (buf : List UInt8) (state : State) : Bool × State :=
  if state.present = false ∨ count = 0 ∨ 8 < count then (false, state)
  else
    let state := { state with bounce := state.bounce.copy 0 (buf.take (512 * count)) }
    match submit delays (rwSqe bounce lba count true) state with
    | (.ok, state) => (true, state)
    | (_, state) => (false, state)

end GWKernel.Nvme
