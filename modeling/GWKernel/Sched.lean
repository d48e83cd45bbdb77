import GWKernel.UserMode

/-! Kernel threads and their scheduler (kernel/sched/thread.c, kernel/sched/sched.c) with
kernel/arch/x86_64/cpu/switch.S. The saved stack pointer is a word of the memory, since
`context_switch` gets its address. -/

namespace GWKernel.Sched
open Lib
open UserMode (Machine Reg Instr exec)

def maxThreads : Nat := 16

def threadStackSize : UInt64 := 8192

def threadNameMax : Nat := 24

inductive ThreadState where
  | unused
  | ready
  | running
  | blocked
  | dead
deriving DecidableEq, Repr

/-- A pointer to a thread: to `idle_thread` or into `thread_pool`. -/
inductive Ref where
  | idle
  | slot (index : Fin maxThreads)
deriving DecidableEq, Repr

/-- `thread_t` without `rsp`. -/
structure Thread where
  id : Int32
  state : ThreadState
  name : List UInt8
  entry : UInt64
  arg : UInt64
  stackTop : UInt64
  stackBase : UInt64
  next : Option Ref
deriving DecidableEq

def Thread.zero : Thread := ⟨0, .unused, [], 0, 0, 0, 0, none⟩

structure System where
  cpu : Machine
  threads : Ref → Thread
  current : Option Ref
  runQueue : Option Ref
  schedStarted : Bool
  nextId : Int32

/-- Addresses that the linker assigns. -/
structure Layout where
  threadTrampoline : UInt64
  /-- The address behind `call *%rax` in `thread_trampoline`. -/
  entryReturn : UInt64
  /-- `&t->rsp` -/
  rspCell : Ref → UInt64

namespace System

def modify (sys : System) (t : Ref) (change : Thread → Thread) : System :=
  { sys with threads := fun other => if other = t then change (sys.threads t) else sys.threads other }

/-- `*(uint64_t *)address = value`. -/
def store (sys : System) (address value : UInt64) : System :=
  { sys with cpu := { sys.cpu with mem := setWord sys.cpu.mem address.toNat value } }

end System

variable (layout : Layout) (fuel : Nat)

/-- `while (p->next) p = p->next`. -/
def lastFrom (threads : Ref → Thread) : Nat → Ref → Option Ref
  | 0, _ => none
  | fuel + 1, p =>
    match (threads p).next with
    | none => some p
    | some next => lastFrom threads fuel next

def schedAdd (t : Ref) (sys : System) : Option System :=
  let sys := sys.modify t fun thread => { thread with next := none }
  match sys.runQueue with
  | none => some { sys with runQueue := some t }
  | some p => do
    let last ← lastFrom sys.threads fuel p
    some (sys.modify last fun thread => { thread with next := some t })

def dequeue (sys : System) : Option Ref × System :=
  match sys.runQueue with
  | none => (none, sys)
  | some t =>
    let sys := { sys with runQueue := (sys.threads t).next }
    (some t, sys.modify t fun thread => { thread with next := none })

/-- The loop of `sched_pick_next`, with the number of scans that are left. -/
def pickNext : Nat → System → Option Ref × System
  | 0, sys => (none, sys)
  | scans + 1, sys =>
    match dequeue sys with
    | (none, sys) => (none, sys)
    | (some t, sys) => if (sys.threads t).state = .ready then (some t, sys) else pickNext scans sys

def schedPickNext (sys : System) : Option Ref × System := pickNext maxThreads sys

def contextSwitch : List Instr :=
  [.push .rbp, .push .rbx, .push .r12, .push .r13, .push .r14, .push .r15,
    .store .rdi .rsp, .mov .rsp .rsi,
    .pop .r15, .pop .r14, .pop .r13, .pop .r12, .pop .rbx, .pop .rbp, .ret]

/-- The call `context_switch(old, next->rsp)` that returns to `back`. -/
def switchTo (back old : UInt64) (next : Ref) (sys : System) : System :=
  let new := word sys.cpu.mem (layout.rspCell next).toNat
  { sys with cpu := exec contextSwitch (((sys.cpu.set .rdi old).set .rsi new).push back) }

/-- `thread_trampoline` up to the call of the entry. -/
def threadTrampoline (m : Machine) : Machine :=
  let m := { m with rflags := m.rflags ||| 0x200 }
  let m := (m.pop .rdi).pop .rax
  { m.push layout.entryReturn with rip := m.regs .rax }

/-- `next->state = THREAD_RUNNING; thread_set_current(next)`. -/
def System.run (sys : System) (next : Ref) : System :=
  { sys.modify next fun thread => { thread with state := .running } with current := some next }

/-- The current thread goes to the end of the queue if it is still running. -/
def requeue (cur : Option Ref) (sys : System) : Option System :=
  match cur with
  | none => some sys
  | some cur =>
    if cur ≠ .idle ∧ (sys.threads cur).state = .running then
      schedAdd fuel cur (sys.modify cur fun thread => { thread with state := .ready })
    else some sys

/-- `&cur->rsp`, or the address of the variable `dummy`. -/
def savesTo (cur : Option Ref) (dummy : UInt64) : UInt64 :=
  match cur with
  | some (.slot index) => layout.rspCell (.slot index)
  | _ => dummy

/-- `sched_on_timer`. Its call of `context_switch` returns to `back`. -/
def schedOnTimer (back dummy : UInt64) (sys : System) : Option System :=
  if sys.schedStarted = false then some sys
  else
    let cur := sys.current
    let (next, sys) := schedPickNext sys
    match next with
    | none => some sys
    | some next =>
      if cur = some next then some sys
      else do
        let sys ← requeue fuel cur sys
        some (switchTo layout back (savesTo layout cur dummy) next (sys.run next))

/-- `sched_start`. It halts when there is no thread. -/
def schedStart (back discard : UInt64) (sys : System) : System :=
  let (next, sys) := schedPickNext { sys with schedStarted := true }
  match next with
  | none => sys
  | some next => switchTo layout back discard next (sys.run next)

/-- The string that `name_copy` leaves. -/
def nameCopy (src : Option (List UInt8)) : List UInt8 := (src.getD [0x3F]).take (threadNameMax - 1)

def freeSlot (sys : System) : Option Ref :=
  ((List.finRange maxThreads).find? fun index => decide ((sys.threads (.slot index)).state = .unused)).map .slot

/-- `*(--sp) = value` for each of the values. -/
def pushAll (values : List UInt64) (sp : UInt64) (sys : System) : UInt64 × System :=
  values.foldl (fun (sp, sys) value => (sp - 8, sys.store (sp - 8) value)) (sp, sys)

/-- The values that `thread_create` pushes, in this order. -/
def initialFrame (entry arg : UInt64) : List UInt64 := [entry, arg, layout.threadTrampoline, 0, 0, 0, 0, 0, 0]

/-- The part of `thread_create` that fills in the thread and builds its stack, with the
stack pointer. -/
def buildThread (name : Option (List UInt8)) (entry arg stack : UInt64) (t : Ref) (sys : System) : UInt64 × System :=
  let id := sys.nextId
  let sys := { sys with nextId := sys.nextId + 1 }
  let sys := sys.modify t fun thread =>
    { thread with
      id := id, state := .ready, entry := entry, arg := arg, stackBase := stack, next := none, name := nameCopy name }
  let top := stack + threadStackSize
  let (sp, sys) := pushAll (initialFrame layout entry arg) (top &&& 0xFFFFFFFFFFFFFFF0) sys
  let sys := sys.store (layout.rspCell t) sp
  (sp, sys.modify t fun thread => { thread with stackTop := top })

/-- `thread_create`, with what `kmalloc` returns: the thread's number, or -1. -/
def threadCreate (name : Option (List UInt8)) (entry arg : UInt64) (stack : Option UInt64) (sys : System) :
    Option (Int32 × System) :=
  match freeSlot sys, stack with
  | none, _ => some (-1, sys)
  | some _, none => some (-1, sys)
  | some t, some stack =>
    let (sp, sys) := buildThread layout name entry arg stack t sys
    if sp < stack ∨ (sys.threads t).stackTop ≤ sp then
      some (-1, sys.modify t fun thread => { thread with state := .unused })
    else do
      let sys ← schedAdd fuel t sys
      some ((sys.threads t).id, sys)

def threadYield (back dummy : UInt64) (sys : System) : Option System := schedOnTimer layout fuel back dummy sys

/-- `thread_exit` up to the first return of `sched_on_timer` to its loop, which makes the
same call again. -/
def threadExit (back dummy : UInt64) (sys : System) : Option System :=
  let sys := match sys.current with
    | none => sys
    | some t => sys.modify t fun thread => { thread with state := .dead }
  schedOnTimer layout fuel back dummy sys

def threadInitIdle (sys : System) : System :=
  let sys := { sys with threads := fun t =>
    match t with
    | .idle => sys.threads .idle
    | .slot index => { sys.threads (.slot index) with state := .unused } }
  let sys := sys.modify .idle fun thread =>
    { thread with
      id := 0, state := .running, stackBase := 0, next := none, name := nameCopy (some [0x69, 0x64, 0x6C, 0x65]) }
  { sys.store (layout.rspCell .idle) 0 with current := some .idle }

def schedInit (sys : System) : System := threadInitIdle layout { sys with runQueue := none, schedStarted := false }

end GWKernel.Sched
