import GWKernel.Vfs

/-! The buffers of the RAMFS (kernel/vfs/vfs.c) in one memory: a node has the pointer that the
source gives it. Call number `k` of `kmalloc` that succeeds returns `address k`. A loop that
copies bytes is one `copy`. -/

namespace GWKernel.Vfs
open Lib

/-- The memory, and the data pointer of each node. -/
structure Heap where
  memory : Mem
  data : Nat → Option Nat

structure Machine where
  state : State
  heap : Heap

/-- `n->data`, as an address. -/
def Heap.pointer (heap : Heap) (n : Nat) : Nat := (heap.data n).getD 0

def Heap.setData (heap : Heap) (n : Nat) (data : Option Nat) : Heap :=
  { heap with data := fun other => if other = n then data else heap.data other }

def Machine.bytes (machine : Machine) (n : Nat) : List UInt8 :=
  machine.heap.memory.slice (machine.heap.pointer n) (machine.state.ram.nodes n).size

section Calls

variable (address : Nat → Nat)

/-- What `kmalloc(size)` returns next. -/
def nextAddress (ram : Ramfs) (size : Nat) : Option Nat :=
  (kmalloc ram size).1.map fun _ => address ram.kmallocs.length

/-- `f->data = kmalloc(512)`. -/
def Heap.give (heap : Heap) (ram : Ramfs) (f : Nat) : Heap := heap.setData f (nextAddress address ram 512)

/-- A larger buffer, with the old content copied over. -/
def Heap.grow (heap : Heap) (ram : Ramfs) (n len : Nat) : Heap :=
  match nextAddress address ram (min (len + 256) maxFileSize) with
  | none => heap
  | some nd =>
    let content := heap.memory.slice (heap.pointer n) (ram.nodes n).size
    { heap with memory := heap.memory.copy nd content }.setData n (some nd)

def Heap.put (heap : Heap) (n : Nat) (bytes : List UInt8) : Heap :=
  { heap with memory := heap.memory.copy (heap.pointer n) bytes }

/-- The part of `vfs_write` that stores the bytes in a file. -/
def Heap.store (heap : Heap) (ram : Ramfs) (n : Nat) (buf : List UInt8) : Heap :=
  if (ram.nodes n).type ≠ .file then heap
  else
    let buf := buf.take maxFileSize
    if (ram.nodes n).capacity < buf.length then
      if (growBuffer ram n buf.length).1 then (heap.grow address ram n buf.length).put n buf else heap
    else heap.put n buf

def Machine.createFile (fuel : Nat) (path : List UInt8) (machine : Machine) : Option (Bool × Machine) := do
  let target := (parseDrive machine.state.drive path).1
  if target = .d ∨ machine.state.drive = .d then
    let (ok, state) ← vfsCreateFile fuel path machine.state
    some (ok, { machine with state := state })
  else
    match ← addNode machine.state fuel path .file with
    | none => some (false, machine)
    | some (f, ram) =>
      let (ok, given) := giveBuffer ram f
      some (ok, ⟨{ machine.state with ram := given }, machine.heap.give address ram f⟩)

/-- The end of `vfs_write`, with the node found. -/
def Machine.storeAt (machine : Machine) (found : Option Nat) (buf : List UInt8) : Option Nat × Machine :=
  match found with
  | none => (none, machine)
  | some n =>
    let (wrote, ram) := store machine.state.ram n buf
    (wrote, ⟨{ machine.state with ram := ram }, machine.heap.store address machine.state.ram n buf⟩)

def Machine.write (fuel : Nat) (path buf : List UInt8) (machine : Machine) : Option (Option Nat × Machine) := do
  let target := (parseDrive machine.state.drive path).1
  if target = .d ∨ machine.state.drive = .d ∧ namesC path = false then
    let (wrote, state) ← vfsWrite fuel path buf machine.state
    some (wrote, { machine with state := state })
  else
    match ← vfsLookup machine.state fuel path with
    | some n => some (machine.storeAt address (some n) buf)
    | none =>
      let (made, machine) ← machine.createFile address fuel path
      if made then
        let found ← vfsLookup machine.state fuel path
        some (machine.storeAt address found buf)
      else some (none, machine)

end Calls

def Machine.read (fuel : Nat) (path : List UInt8) (maxlen : Nat) (machine : Machine) :
    Option (Option (List UInt8) × Machine) := do
  let target := (parseDrive machine.state.drive path).1
  if target = .d ∨ machine.state.drive = .d ∧ namesC path = false then
    let (bytes, state) ← vfsRead fuel path maxlen machine.state
    some (bytes, { machine with state := state })
  else
    match ← vfsLookup machine.state fuel path with
    | none => some (none, machine)
    | some n =>
      if (machine.state.ram.nodes n).type ≠ .file then some (none, machine)
      else
        let ncopy := min (machine.state.ram.nodes n).size maxlen
        some (some (machine.heap.memory.slice (machine.heap.pointer n) ncopy), machine)

end GWKernel.Vfs
