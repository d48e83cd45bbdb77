import GWKernel.Pmm

/-! The kernel heap (kernel/mm/heap.c): a free list in address order through the blocks' own
headers. `none` means that a walk over the list was still going, or that a fill has run over the
end of the address space, through all of memory. -/

namespace GWKernel.Heap
open Lib Pmm

def heapAlign : Nat := 16
def heapMagicAlloc : Nat := 0xA110C000
def heapMagicFree : Nat := 0xF4EE0000
def heapPoisonAlloc : UInt8 := 0xCD
def heapPoisonFree : UInt8 := 0xDC
def heapMinBlock : Nat := 32
def heapExpandPages : Nat := 16

/-- `sizeof(heap_block_t)`: magic at 0, size at 4, next at 8, canary at 16. -/
def headerSize : Nat := 24

def not32 (value : Nat) : Nat := 2 ^ 32 - 1 - value

def magicAt (mem : Mem) (block : Nat) : Nat := mem.le block 4
def sizeAt (mem : Mem) (block : Nat) : Nat := mem.le (block + 4) 4
def nextAt (mem : Mem) (block : Nat) : Nat := mem.le (block + 8) 8
def canaryAt (mem : Mem) (block : Nat) : Nat := mem.le (block + 16) 4

def setMagic (mem : Mem) (block value : Nat) : Mem := mem.put block 4 value
def setSize (mem : Mem) (block value : Nat) : Mem := mem.put (block + 4) 4 value
def setNext (mem : Mem) (block value : Nat) : Mem := mem.put (block + 8) 8 value
def setCanary (mem : Mem) (block value : Nat) : Mem := mem.put (block + 16) 4 value

/-- The static variables of heap.c, the memory, and the state of the page allocator. -/
structure State (π : Type) where
  mem : Mem
  freeList : Nat
  total : Nat
  used : Nat
  ready : Bool
  pmm : π

/-- A `heap_block_t **`: the list head or the `next` field of a block. -/
inductive Link where
  | head
  | next (block : Nat)
deriving DecidableEq, Repr

variable {π : Type}

def State.load (heap : State π) : Link → Nat
  | .head => heap.freeList
  | .next block => nextAt heap.mem block

def State.store (heap : State π) (link : Link) (value : Nat) : State π :=
  match link with
  | .head => { heap with freeList := value }
  | .next block => { heap with mem := setNext heap.mem block value }

/-- `(v + a - 1) & ~(a - 1)` for a power of two `a`. -/
def alignUp (value align : Nat) : Nat := u64 (value + align - 1) / align * align

def isPowerOfTwo (value : Nat) : Bool := value ≠ 0 && (value &&& (value - 1)) = 0

/-- `while (*pp && *pp < block) pp = &(*pp)->next`. -/
def seek (heap : State π) (block : Nat) : Nat → Link → Option Link
  | 0, _ => none
  | fuel + 1, link =>
    let current := heap.load link
    if current ≠ 0 ∧ current < block then seek heap block fuel (.next current) else some link

/-- `while (prev && prev->next != block) prev = prev->next`. -/
def findPrevious (mem : Mem) (block : Nat) : Nat → Nat → Option Nat
  | 0, _ => none
  | fuel + 1, previous =>
    if previous ≠ 0 ∧ nextAt mem previous ≠ block then findPrevious mem block fuel (nextAt mem previous)
    else some previous

/-- The last part of `insert_free`: join the linked block to the one before it. -/
def coalescePrevious (fuel : Nat) (block : Nat) (heap : State π) : Option (State π) :=
  if heap.freeList = block then some heap
  else do
    let previous ← findPrevious heap.mem block fuel heap.freeList
    if previous ≠ 0 ∧ previous + headerSize + sizeAt heap.mem previous = block then
      let mem := setSize heap.mem previous (sizeAt heap.mem previous + (headerSize + sizeAt heap.mem block))
      some { heap with mem := setNext mem previous (nextAt mem block) }
    else some heap

/-- The first part of `insert_free`: a free header over a poisoned payload. -/
def markFree (mem : Mem) (block : Nat) : Mem :=
  let mem := setMagic mem block heapMagicFree
  let mem := setCanary mem block (not32 heapMagicFree)
  let mem := setNext mem block 0
  mem.fill (block + headerSize) (sizeAt mem block) heapPoisonFree

/-- `insert_free`: poison, insert by address, coalesce with the next block or else
with the previous one. -/
def insertFree (fuel : Nat) (block : Nat) (heap : State π) : Option (State π) := do
  let heap := { heap with mem := markFree heap.mem block }
  let link ← seek heap block fuel .head
  let current := heap.load link
  if current ≠ 0 ∧ block + headerSize + sizeAt heap.mem block = current then
    let mem := setSize heap.mem block (sizeAt heap.mem block + (headerSize + sizeAt heap.mem current))
    let mem := setNext mem block (nextAt mem current)
    some ({ heap with mem }.store link block)
  else
    let heap := { heap with mem := setNext heap.mem block current }
    coalescePrevious fuel block (heap.store link block)

/-- `pmm_alloc_pages`, as the heap sees it. -/
abbrev PageSource (π : Type) := Nat → π → Nat × π

variable (allocPages : PageSource π)

/-- The number of pages `expand_heap` asks for. -/
def expandPages (needPayload : Nat) : Nat :=
  let need := u64 (headerSize + needPayload + heapMinBlock)
  max (u64 (need + pageSize - 1) / pageSize) heapExpandPages

/-- `expand_heap`; the flag is true for the result 0. -/
def expandHeap (fuel : Nat) (needPayload : Nat) (heap : State π) : Option (Bool × State π) :=
  let pages := expandPages needPayload
  let (phys, pmm) := allocPages pages heap.pmm
  if phys = 0 then some (false, { heap with pmm })
  else do
    let mem := setSize heap.mem phys (u64 (pages * pageSize + 2 ^ 64 - headerSize))
    let heap ← insertFree fuel phys { heap with mem, pmm, total := u64 (heap.total + pages * pageSize) }
    some (true, heap)

/-- `heap_init`; the flag is true for the result 0. -/
def heapInit (fuel : Nat) (heap : State π) : Option (Bool × State π) := do
  let (expanded, heap) ← expandHeap allocPages fuel pageSize { heap with freeList := 0, total := 0, used := 0 }
  if expanded then some (true, { heap with ready := true }) else some (false, heap)

inductive Fit where
  | corrupt
  | found (link : Link) (block : Nat)
  | absent

/-- The inner loop of `kmalloc_aligned`: first fit. -/
def firstFit (heap : State π) (need : Nat) : Nat → Link → Option Fit
  | 0, _ => none
  | fuel + 1, link =>
    let block := heap.load link
    if block = 0 then some .absent
    else if magicAt heap.mem block ≠ heapMagicFree ∨ canaryAt heap.mem block ≠ not32 heapMagicFree then some .corrupt
    else if need ≤ sizeAt heap.mem block then some (.found link block)
    else firstFit heap need fuel (.next block)

/-- Unlink a block, give back what is left over, and mark the block allocated. -/
def takeBlock (fuel : Nat) (need : Nat) (link : Link) (block : Nat) (heap : State π) : Option (State π) := do
  let heap := heap.store link (nextAt heap.mem block)
  let remain := sizeAt heap.mem block - need
  let heap ← if headerSize + heapMinBlock ≤ remain then do
      let rest := block + headerSize + need
      let heap ← insertFree fuel rest { heap with mem := setSize heap.mem rest (remain - headerSize) }
      some { heap with mem := setSize heap.mem block need }
    else some heap
  let mem := setMagic heap.mem block heapMagicAlloc
  let mem := setCanary mem block (not32 heapMagicAlloc)
  some { heap with mem := setNext mem block 0 }

/-- The pointer handed out for a block; an over-aligned one is preceded by the
address of its block. -/
def placePointer (align : Nat) (block : Nat) (heap : State π) : Nat × State π :=
  let base := block + headerSize
  if heapAlign < align then
    let ptr := alignUp (base + 8) align
    (ptr, { heap with mem := heap.mem.put (ptr - 8) 8 block })
  else (base, heap)

/-- The `for (;;)` of `kmalloc_aligned`: search, then expand and search again. -/
def kmallocLoop (fuel : Nat) (size align need : Nat) : Nat → State π → Option (Nat × State π)
  | 0, _ => none
  | rounds + 1, heap => do
    match ← firstFit heap need fuel .head with
    | .corrupt => some (0, heap)
    | .found link block =>
      let heap ← takeBlock fuel need link block heap
      let (ptr, heap) := placePointer align block heap
      if 2 ^ 64 ≤ ptr + size then none
      else some (ptr, { heap with
        mem := heap.mem.fill ptr size heapPoisonAlloc
        used := u64 (heap.used + (sizeAt heap.mem block + headerSize)) })
    | .absent =>
      let (expanded, heap) ← expandHeap allocPages fuel need heap
      if expanded then kmallocLoop fuel size align need rounds heap else some (0, heap)

/-- `kmalloc_aligned`: a pointer, or 0. -/
def kmallocAligned (fuel : Nat) (size align : Nat) (heap : State π) : Option (Nat × State π) :=
  if !heap.ready || size = 0 then some (0, heap)
  else
    let align := if !isPowerOfTwo align || align < heapAlign then heapAlign else align
    let need := if heapAlign < align then u64 (size + align + 8) else alignUp size heapAlign
    kmallocLoop allocPages fuel size align (max need 16) fuel heap

def kmalloc (fuel : Nat) (size : Nat) (heap : State π) : Option (Nat × State π) :=
  kmallocAligned allocPages fuel size heapAlign heap

def isAllocated (mem : Mem) (block : Nat) : Bool :=
  magicAt mem block = heapMagicAlloc && canaryAt mem block = not32 heapMagicAlloc

/-- The block `kfree` releases: the header before the pointer, or the block an over-aligned
pointer records. -/
def blockOf (mem : Mem) (ptr : Nat) : Option Nat :=
  let block := u64 (ptr + 2 ^ 64 - headerSize)
  let candidate := mem.le (u64 (ptr + 2 ^ 64 - 8)) 8
  if isAllocated mem block then some block
  else if candidate ≠ 0 && isAllocated mem candidate then some candidate
  else none

def kfree (fuel : Nat) (ptr : Nat) (heap : State π) : Option (State π) :=
  if ptr = 0 ∨ heap.ready = false then some heap
  else match blockOf heap.mem ptr with
    | none => some heap
    | some block =>
      let total := sizeAt heap.mem block + headerSize
      insertFree fuel block { heap with used := heap.used - total }

def heapUsedBytes (heap : State π) : Nat := heap.used
def heapTotalBytes (heap : State π) : Nat := heap.total

/-- The walk of `heap_free_bytes` from `block`, with the sum so far. -/
def sumFree (mem : Mem) : Nat → Nat → Nat → Option Nat
  | 0, _, _ => none
  | fuel + 1, block, sum =>
    if block = 0 then some sum
    else sumFree mem fuel (nextAt mem block) (u64 (sum + (sizeAt mem block + headerSize)))

def heapFreeBytes (fuel : Nat) (heap : State π) : Option Nat := sumFree heap.mem fuel heap.freeList 0

end GWKernel.Heap
