import GWKernel.Elf
import GWKernel.Process
import GWKernel.Vfs

/-! Running a file (`process_exec` of kernel/process/process.c). Bytes that a failed read leaves
in the buffer are not modelled. -/

namespace GWKernel.Exec
open Lib Process

def execBufMax : Nat := 256 * 1024

/-- Heap, file systems and the static variables of process.c; the memory is the heap's. -/
structure State (π : Type) where
  heap : Heap.State π
  vfs : Vfs.State
  name : List UInt8
  currentProc : Proc
  nextPid : Nat
  lastExitCode : Int

variable {π : Type}

def State.process (state : State π) : Process.State :=
  ⟨state.heap.mem, state.currentProc, state.nextPid, state.lastExitCode⟩

def State.withMem (state : State π) (mem : Mem) : State π := { state with heap := { state.heap with mem } }

def State.withProcess (state : State π) (process : Process.State) : State π :=
  { state.withMem process.mem with
    currentProc := process.currentProc
    nextPid := process.nextPid
    lastExitCode := process.lastExitCode }

/-- The part of a path behind its last separator. -/
def afterSeparator (path : List UInt8) : List UInt8 :=
  (path.reverse.takeWhile fun char => !Fat.isSeparator char).reverse

def setName (path : List UInt8) (state : State π) : State π := { state with name := (afterSeparator path).take 31 }

/-- The two attempts to read the file; an empty file counts as missing. -/
def readFile (fuel : Nat) (path : List UInt8) (vfs : Vfs.State) : Option (List UInt8 × Vfs.State) := do
  let (found, vfs) ← Vfs.vfsRead fuel path (execBufMax - 1) vfs
  if (found.getD []).length ≠ 0 then some (found.getD [], vfs)
  else
    let (found, vfs) ← Vfs.onFat vfs (Fat.fatReadFile vfs.vol fuel path execBufMax)
    some (found.getD [], vfs)

section Kernel
variable (allocPages : Heap.PageSource π) (switchToUser : SwitchToUser)

/-- `process_exec` up to `load_and_run`: the buffer, or 0, and the bytes read into it. -/
def fetch (fuel : Nat) (path : List UInt8) (state : State π) : Option ((Nat × List UInt8) × State π) := do
  let (buf, heap) ← Heap.kmalloc allocPages fuel execBufMax state.heap
  let state := { state with heap }
  if buf = 0 then some ((0, []), state)
  else
    let state := setName path state
    let state := { state with
      currentProc := { state.currentProc with pid := state.nextPid }
      nextPid := state.nextPid + 1 }
    let (bytes, vfs) ← readFile fuel path state.vfs
    let state := { state with vfs }
    some ((buf, bytes), state.withMem (state.heap.mem.copy buf bytes))

def loadAndRun (data size : Nat) (state : State π) : Int × State π :=
  let (info, machine) := Elf.elfLoad data size ⟨state.heap.mem, [], []⟩
  let state := state.withMem machine.mem
  match info with
  | none => (-1, state)
  | some info =>
    let (code, process) := enterAt switchToUser info.entry state.process
    (code, state.withProcess process)

def processExec (fuel : Nat) (path : List UInt8) (state : State π) : Option (Int × State π) := do
  let ((buf, bytes), state) ← fetch allocPages fuel path state
  if buf = 0 then some (-1, state)
  else
    let (code, state) := if bytes.length ≠ 0 then loadAndRun switchToUser buf bytes.length state else (-1, state)
    let heap ← Heap.kfree fuel buf state.heap
    some (code, { state with heap })

end Kernel

end GWKernel.Exec
