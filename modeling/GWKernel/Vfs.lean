import GWKernel.Fat

/-! The VFS (kernel/vfs/vfs.c). Drive C is a tree of nodes in a static table, drive D the FAT
volume. A pointer to a node is its index; a computation that has used up its fuel has no result.
-/

namespace GWKernel.Vfs
open Lib
open Fat (isSeparator)

inductive Drive where
  | c
  | d
deriving DecidableEq, Repr

/-- `vfs_type_t`; `cleared` is the 0 that `vfs_unlink` assigns. -/
inductive NodeType where
  | cleared
  | dir
  | file
deriving DecidableEq, Repr

/-- `vfs_node_t`. The data is the buffer behind the pointer, or nothing for NULL. -/
structure Node where
  name : List UInt8
  type : NodeType
  parent : Option Nat
  child : Option Nat
  sibling : Option Nat
  data : Option Mem
  size : Nat
  capacity : Nat

/-- A node after `memset_l(n, 0, sizeof(*n))`. -/
def Node.zero : Node := ⟨[], .cleared, none, none, none, none, 0, 0⟩

/-- The node table and the memory of files: `low` is the memory at address 0, where a file without
a buffer would write, `grants` are the results that `kmalloc` will return, and `kmallocs` the
sizes granted so far. -/
structure Ramfs where
  nodes : Nat → Node
  nodeCount : Nat
  low : Mem
  grants : List (Option Mem)
  kmallocs : List Nat

structure State where
  ram : Ramfs
  cwd : Nat
  drive : Drive
  vol : Fat.Volume
  medium : Fat.Medium

def nameMax : Nat := 64

def pathMax : Nat := 256

def maxNodes : Nat := 128

def maxFileSize : Nat := 16 * 1024

/-- `root`: the first node that `vfs_init` allocates, and never assigned again. -/
def root : Nat := 0

def text (literal : String) : List UInt8 := literal.toList.map fun char => char.toNat.toUInt8

/-- The string that `strcpy_l` leaves in a buffer of `max` bytes. -/
def strcpy (text : List UInt8) (max : Nat) : List UInt8 := text.take (max - 1)

def setNode (nodes : Nat → Node) (n : Nat) (node : Node) : Nat → Node :=
  fun other => if other = n then node else nodes other

/-- `alloc_node`: the new node with the table that holds it. -/
def allocNode (ram : Ramfs) (name : List UInt8) (type : NodeType) (parent : Option Nat) : Option (Nat × Ramfs) :=
  if maxNodes ≤ ram.nodeCount then none
  else
    let n := ram.nodeCount
    let nodes := setNode ram.nodes n { Node.zero with name := strcpy name nameMax, type := type, parent := parent }
    let nodes := match parent with
      | none => nodes
      | some p =>
        let nodes := setNode nodes n { nodes n with sibling := (nodes p).child }
        setNode nodes p { nodes p with child := some n }
    some (n, { ram with nodes := nodes, nodeCount := n + 1 })

def kmalloc (ram : Ramfs) (size : Nat) : Option Mem × Ramfs :=
  match ram.grants with
  | [] => (none, ram)
  | none :: rest => (none, { ram with grants := rest })
  | some buffer :: rest => (some buffer, { ram with grants := rest, kmallocs := size :: ram.kmallocs })

/-- `(p[0] == 'C' || p[0] == 'c') && p[1] == ':'`. -/
def namesC : List UInt8 → Bool
  | first :: second :: _ => (first == 0x43 || first == 0x63) && second == 0x3A
  | _ => false

/-- `(p[0] == 'D' || p[0] == 'd') && p[1] == ':'`. -/
def namesD : List UInt8 → Bool
  | first :: second :: _ => (first == 0x44 || first == 0x64) && second == 0x3A
  | _ => false

/-- `parse_drive`: the drive, and the path behind the drive letter and slashes. -/
def parseDrive (drive : Drive) (path : List UInt8) : Drive × List UInt8 :=
  if namesC path then (.c, (path.drop 2).dropWhile isSeparator)
  else if namesD path then (.d, (path.drop 2).dropWhile isSeparator)
  else (drive, path)

def stripC (path : List UInt8) : List UInt8 :=
  (if namesC path then path.drop 2 else path).dropWhile isSeparator

/-- The pieces that `lookup_rel` cuts a path into; the first argument bounds their number. -/
def pieces : Nat → List UInt8 → List (List UInt8)
  | 0, _ => []
  | _, [] => []
  | steps + 1, char :: rest =>
    let part := ((char :: rest).takeWhile fun char => !isSeparator char).take (nameMax - 1)
    part :: pieces steps (((char :: rest).drop part.length).dropWhile isSeparator)

/-- The search of a child list for a name. -/
def findChild (nodes : Nat → Node) : Nat → Option Nat → List UInt8 → Option (Option Nat)
  | 0, _, _ => none
  | _ + 1, none, _ => some none
  | fuel + 1, some c, part =>
    if (nodes c).name = part then some (some c) else findChild nodes fuel (nodes c).sibling part

/-- The loop of `lookup_rel`. -/
def walkPieces (nodes : Nat → Node) (fuel : Nat) : Nat → List (List UInt8) → Option (Option Nat)
  | cur, [] => some (some cur)
  | cur, part :: rest =>
    if part = [] ∨ part = [0x2E] then walkPieces nodes fuel cur rest
    else if part = [0x2E, 0x2E] then walkPieces nodes fuel ((nodes cur).parent.getD cur) rest
    else if (nodes cur).type ≠ .dir then some none
    else
      match findChild nodes fuel (nodes cur).child part with
      | none => none
      | some none => some none
      | some (some c) => walkPieces nodes fuel c rest

/-- `lookup_rel`: a node, or nothing for NULL. -/
def lookupRel (nodes : Nat → Node) (fuel base : Nat) (path : List UInt8) : Option (Option Nat) :=
  if path = [] then some (some base)
  else walkPieces nodes fuel base (pieces (stripC path).length (stripC path))

def lastSeparator (path : List UInt8) : Option Nat :=
  (path.reverse.findIdx? isSeparator).map fun index => path.length - 1 - index

/-- `split_parent`: the two strings that it returns. -/
def splitParent (path : List UInt8) : List UInt8 × List UInt8 :=
  let tmp := strcpy path pathMax
  match lastSeparator tmp with
  | none => ([], strcpy tmp nameMax)
  | some last => (strcpy (tmp.take last) pathMax, strcpy (tmp.drop (last + 1)) nameMax)

def vfsLookup (state : State) (fuel : Nat) (path : List UInt8) : Option (Option Nat) :=
  if path = [] then some (some state.cwd)
  else if (parseDrive state.drive path).1 = .d then some none
  else if namesC path then lookupRel state.ram.nodes fuel root path
  else if (path.head?.map isSeparator).getD false then lookupRel state.ram.nodes fuel root path
  else if state.drive = .d then some none
  else lookupRel state.ram.nodes fuel state.cwd path

def onFat {α : Type} (state : State) (code : Fat.Io α) : Option (α × State) :=
  (code state.medium).map fun result => (result.1, { state with medium := result.2 })

def onFatChdir (state : State) (fuel : Nat) (path : List UInt8) : Option (Bool × State) :=
  (Fat.fatChdir state.vol fuel path state.medium).map fun result =>
    (result.1.1, { state with vol := result.1.2, medium := result.2 })

/-- The directory found at `found` becomes the current one. -/
def enter (state : State) (found : Option Nat) : Bool × State :=
  match found with
  | none => (false, state)
  | some n => if (state.ram.nodes n).type ≠ .dir then (false, state) else (true, { state with cwd := n, drive := .c })

/-- `vfs_chdir` to drive D, which tries the path twice. -/
def chdirD (fuel : Nat) (p : List UInt8) (state : State) : Option (Bool × State) := do
  let (ok, state) ← onFatChdir state fuel (if p = [] then [0x2F] else p)
  if ok then some (true, { state with drive := .d })
  else
    let (ok, state) ← onFatChdir state fuel p
    if ok then some (true, { state with drive := .d }) else some (false, state)

def vfsChdir (fuel : Nat) (path : List UInt8) (state : State) : Option (Bool × State) := do
  let (target, p) := parseDrive state.drive path
  if target = .d ∨ namesD path then chdirD fuel p state
  else if namesC path then
    let found ← lookupRel state.ram.nodes fuel root path
    some (enter state found)
  else if state.drive = .d then onFatChdir state fuel path
  else
    let found ← vfsLookup state fuel path
    some (enter state found)

/-- The end of `vfs_mkdir` and of the RAMFS part of `vfs_create_file`; nothing for -1. -/
def allocIn (state : State) (fuel : Nat) (par : Option Nat) (name : List UInt8) (type : NodeType) :
    Option (Option (Nat × Ramfs)) := do
  match par with
  | none => some none
  | some par =>
    if (state.ram.nodes par).type ≠ .dir then some none
    else
      match ← lookupRel state.ram.nodes fuel par name with
      | some _ => some none
      | none => some (allocNode state.ram name type (some par))

/-- The part that `vfs_mkdir` and `vfs_create_file` share. -/
def addNode (state : State) (fuel : Nat) (path : List UInt8) (type : NodeType) : Option (Option (Nat × Ramfs)) :=
  let (parent, name) := splitParent path
  if name = [] then some none
  else if parent ≠ [] then do
    let par ← vfsLookup state fuel parent
    allocIn state fuel par name type
  else allocIn state fuel (some state.cwd) name type

def vfsMkdir (fuel : Nat) (path : List UInt8) (state : State) : Option (Bool × State) := do
  let (target, p) := parseDrive state.drive path
  if target = .d ∨ state.drive = .d then
    onFat state (Fat.fatMkdir state.vol fuel (if namesD path then p else path))
  else
    match ← addNode state fuel path .dir with
    | none => some (false, state)
    | some (_, ram) => some (true, { state with ram := ram })

/-- The buffer of a new file: the node stays when there is none. -/
def giveBuffer (ram : Ramfs) (f : Nat) : Bool × Ramfs :=
  let ram := { ram with nodes := setNode ram.nodes f { ram.nodes f with capacity := 512 } }
  let (data, ram) := kmalloc ram 512
  let ram := { ram with nodes := setNode ram.nodes f { ram.nodes f with data := data } }
  match data with
  | none => (false, ram)
  | some _ => (true, { ram with nodes := setNode ram.nodes f { ram.nodes f with size := 0 } })

def vfsCreateFile (fuel : Nat) (path : List UInt8) (state : State) : Option (Bool × State) := do
  let (target, p) := parseDrive state.drive path
  if target = .d ∨ state.drive = .d then
    let (wrote, state) ← onFat state (Fat.fatWriteFile state.vol fuel (if target = .d then p else path) [])
    some (wrote.isSome, state)
  else
    match ← addNode state fuel path .file with
    | none => some (false, state)
    | some (f, ram) =>
      let (ok, ram) := giveBuffer ram f
      some (ok, { state with ram := ram })

/-- The bytes behind the data pointer of a node. -/
def Ramfs.buffer (ram : Ramfs) (n : Nat) : Mem := (ram.nodes n).data.getD ram.low

/-- A larger buffer, with the old content copied over. -/
def growBuffer (ram : Ramfs) (n len : Nat) : Bool × Ramfs :=
  let nc := min (len + 256) maxFileSize
  let (grant, ram) := kmalloc ram nc
  match grant with
  | none => (false, ram)
  | some nd =>
    let nd := nd.copy 0 ((ram.buffer n).slice 0 (ram.nodes n).size)
    (true, { ram with nodes := setNode ram.nodes n { ram.nodes n with data := some nd, capacity := nc } })

def putData (ram : Ramfs) (n : Nat) (bytes : List UInt8) : Ramfs :=
  let ram := match (ram.nodes n).data with
    | none => { ram with low := ram.low.copy 0 bytes }
    | some buffer => { ram with nodes := setNode ram.nodes n { ram.nodes n with data := some (buffer.copy 0 bytes) } }
  { ram with nodes := setNode ram.nodes n { ram.nodes n with size := bytes.length } }

/-- The part of `vfs_write` that stores the bytes in a file. -/
def store (ram : Ramfs) (n : Nat) (buf : List UInt8) : Option Nat × Ramfs :=
  if (ram.nodes n).type ≠ .file then (none, ram)
  else
    let buf := buf.take maxFileSize
    let (ok, ram) := if (ram.nodes n).capacity < buf.length then growBuffer ram n buf.length else (true, ram)
    if ok then (some buf.length, putData ram n buf) else (none, ram)

/-- The end of `vfs_write`, with the node found. -/
def storeAt (state : State) (found : Option Nat) (buf : List UInt8) : Option Nat × State :=
  match found with
  | none => (none, state)
  | some n =>
    let (wrote, ram) := store state.ram n buf
    (wrote, { state with ram := ram })

/-- `vfs_write`: the length written, nothing for -1. -/
def vfsWrite (fuel : Nat) (path buf : List UInt8) (state : State) : Option (Option Nat × State) := do
  let (target, p) := parseDrive state.drive path
  if target = .d then onFat state (Fat.fatWriteFile state.vol fuel p buf)
  else if state.drive = .d ∧ namesC path = false then onFat state (Fat.fatWriteFile state.vol fuel path buf)
  else
    match ← vfsLookup state fuel path with
    | some n => some (storeAt state (some n) buf)
    | none =>
      let (made, state) ← vfsCreateFile fuel path state
      if made then
        let found ← vfsLookup state fuel path
        some (storeAt state found buf)
      else some (none, state)

/-- `vfs_read`: the bytes put into the buffer, nothing for -1. -/
def vfsRead (fuel : Nat) (path : List UInt8) (maxlen : Nat) (state : State) :
    Option (Option (List UInt8) × State) := do
  let (target, p) := parseDrive state.drive path
  if target = .d then onFat state (Fat.fatReadFile state.vol fuel p maxlen)
  else if state.drive = .d ∧ namesC path = false then onFat state (Fat.fatReadFile state.vol fuel path maxlen)
  else
    match ← vfsLookup state fuel path with
    | none => some (none, state)
    | some n =>
      if (state.ram.nodes n).type ≠ .file then some (none, state)
      else some (some ((state.ram.buffer n).slice 0 (min (state.ram.nodes n).size maxlen)), state)

/-- The loop of `vfs_unlink` from the sibling pointer of `c` on. -/
def unlinkAfter (nodes : Nat → Node) (n : Nat) : Nat → Nat → Option (Nat → Node)
  | 0, _ => none
  | fuel + 1, c =>
    match (nodes c).sibling with
    | none => some nodes
    | some next =>
      if next = n then some (setNode nodes c { nodes c with sibling := (nodes n).sibling })
      else unlinkAfter nodes n fuel next

/-- Take `n` out of the child list of `par`. -/
def unlinkChild (nodes : Nat → Node) (fuel par n : Nat) : Option (Nat → Node) :=
  match (nodes par).child with
  | none => some nodes
  | some first =>
    if first = n then some (setNode nodes par { nodes par with child := (nodes n).sibling })
    else unlinkAfter nodes n fuel first

def vfsUnlink (fuel : Nat) (path : List UInt8) (state : State) : Option (Bool × State) := do
  let (target, p) := parseDrive state.drive path
  if target = .d then onFat state (Fat.fatUnlink state.vol fuel p)
  else if state.drive = .d ∧ namesC path = false then onFat state (Fat.fatUnlink state.vol fuel path)
  else
    match ← vfsLookup state fuel path with
    | none => some (false, state)
    | some n =>
      if n = root ∨ (state.ram.nodes n).type = .dir ∧ (state.ram.nodes n).child ≠ none then some (false, state)
      else
        match (state.ram.nodes n).parent with
        | none => some (false, state)
        | some par =>
          let nodes ← unlinkChild state.ram.nodes fuel par n
          let nodes := setNode nodes n { nodes n with type := .cleared, name := [] }
          some (true, { state with ram := { state.ram with nodes := nodes } })

/-- The directories of `vfs_init`. -/
def initialDirs : List (List UInt8) :=
  ["Windows", "Users", "Users/root", "Program Files", "System", "Temp"].map text

def readme : List UInt8 := text "Welcome to GNU/Windows\nGWKernel RAMFS on C:\n"

/-- `vfs_init`, which ignores the results of the calls it makes. -/
def vfsInit (fuel : Nat) (state : State) : Option State := do
  let ram := { state.ram with nodes := fun _ => Node.zero, nodeCount := 0 }
  let ram := ((allocNode ram [] .dir none).map Prod.snd).getD ram
  let state := { state with ram := ram, cwd := root, drive := .c }
  let state ← initialDirs.foldlM (fun state path => (vfsMkdir fuel path state).map Prod.snd) state
  let (_, state) ← vfsChdir fuel (text "Users/root") state
  let (_, state) ← vfsWrite fuel (text "readme.txt") (readme.take 44) state
  some state

end GWKernel.Vfs
