import GWKernel.Heap

/-! Entry into ring 3 (kernel/process/process.c). The switch to user mode is a parameter, which
runs until the program exits. -/

namespace GWKernel.Process
open Lib

def userStackTop : Nat := 0x403000
def userCodeFallback : Nat := 0x400000

/-- The fields of `process_t` that the entry path uses. -/
structure Proc where
  pid : Nat
  active : Bool
  exitCode : Int
deriving DecidableEq, Repr

/-- Memory and the static variables of process.c. -/
structure State where
  mem : Mem
  currentProc : Proc
  nextPid : Nat
  lastExitCode : Int

/-- `process_switch_to_user`. -/
abbrev SwitchToUser := Nat → Nat → State → State

variable (switchToUser : SwitchToUser)

/-- `enter_at`: a zeroed stack page, then the switch. -/
def enterAt (entry : Nat) (state : State) : Int × State :=
  let state := { state with mem := state.mem.fill (userStackTop - 0x1000) 0x1000 0 }
  let state := { state with
    currentProc := { state.currentProc with active := true, exitCode := -1 }
    lastExitCode := -1 }
  let state := if state.currentProc.pid = 0 then
      { state with
        currentProc := { state.currentProc with pid := state.nextPid }
        nextPid := state.nextPid + 1 }
    else state
  let state := switchToUser entry userStackTop state
  (state.lastExitCode, state)

/-- `user_enter`: copy the embedded program to its fixed address and enter it. -/
def userEnter (program : List UInt8) (state : State) : Int × State :=
  let state := { state with mem := state.mem.copy userCodeFallback program }
  let state := { state with
    currentProc := { state.currentProc with pid := state.nextPid }
    nextPid := state.nextPid + 1 }
  enterAt switchToUser userCodeFallback state

end GWKernel.Process
