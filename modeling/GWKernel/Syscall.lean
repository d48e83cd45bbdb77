import GWKernel.Vfs

/-! The system calls that work on files (kernel/syscall/syscall.c). -/

namespace GWKernel.Syscall
open Vfs

/-- `sys_open`, which ignores its flags and mode: 3, or -1. -/
def sysOpen (fuel : Nat) (path : List UInt8) (state : State) : Option (Int × State) := do
  match ← vfsLookup state fuel path with
  | some _ => some (3, state)
  | none =>
    let (created, state) ← vfsCreateFile fuel path state
    if created then
      match ← vfsLookup state fuel path with
      | some _ => some (3, state)
      | none => some (-1, state)
    else some (-1, state)

end GWKernel.Syscall
