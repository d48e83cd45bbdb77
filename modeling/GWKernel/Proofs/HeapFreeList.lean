import GWKernel.Heap

/-! The free list as a list of blocks. A write is harmless to every block it stays apart from. -/

namespace GWKernel.Heap
open Lib Pmm List

variable {π : Type}

structure Block where
  addr : Nat
  size : Nat
deriving DecidableEq, Repr

namespace Block

def span (block : Block) : Span := ⟨block.addr, headerSize + block.size⟩

@[simp] theorem span_start (block : Block) : block.span.start = block.addr := rfl
@[simp] theorem span_size (block : Block) : block.span.size = headerSize + block.size := rfl

def Before (first second : Block) : Prop := first.addr + headerSize + first.size ≤ second.addr

theorem Before.apart {first second : Block} (before : first.Before second) : first.span.Apart second.span := by
  simp only [Before] at before
  simp only [Span.Apart, span_start, span_size]
  omega

def Joins (first second : Block) : Prop := first.addr + headerSize + first.size = second.addr

def merge (first second : Block) : Block := ⟨first.addr, first.size + (headerSize + second.size)⟩

def Bounded (block : Block) : Prop := 0 < block.addr ∧ block.addr + headerSize + block.size ≤ 2 ^ 32

end Block

/-- The header in memory describes the block and carries the magic and its canary. -/
structure Header (mem : Mem) (tag : Nat) (block : Block) : Prop where
  magic : magicAt mem block.addr = tag
  canary : canaryAt mem block.addr = not32 tag
  size : sizeAt mem block.addr = block.size

variable {before after : Mem} {tag : Nat} {block : Block} {mem : Mem} {first last : Nat} {lower free : List Block}

theorem Header.frame (header : Header before tag block) (same : Mem.Agree after before block.addr headerSize) :
    Header after tag block := by
  have size : headerSize = 24 := rfl
  refine ⟨?_, ?_, ?_⟩
  · exact (same.within (by omega) (by omega)).le_eq.trans header.magic
  · exact (same.within (by omega) (by omega)).le_eq.trans header.canary
  · exact (same.within (by omega) (by omega)).le_eq.trans header.size

theorem nextAt_frame (same : Mem.Agree after before block.addr headerSize) :
    nextAt after block.addr = nextAt before block.addr := by
  have size : headerSize = 24 := rfl
  exact (same.within (by omega) (by omega)).le_eq

theorem header_agree {spans : List Span} {before after : Mem} (changes : Mem.ChangesOnly spans before after)
    {block : Block} (apart : ∀ span ∈ spans, span.Apart block.span) :
    Mem.Agree after before block.addr headerSize :=
  (changes.agree apart).within (Nat.le_refl _) (by simp)

theorem nextAt_lt (mem : Mem) (block : Nat) : nextAt mem block < 2 ^ 64 := Mem.le_lt mem (block + 8) 8

@[simp] theorem nextAt_setNext (mem : Mem) (block value : Nat) :
    nextAt (setNext mem block value) block = value % 2 ^ 64 := by
  simp [nextAt, setNext]

@[simp] theorem sizeAt_setSize (mem : Mem) (block value : Nat) :
    sizeAt (setSize mem block value) block = value % 2 ^ 32 := by
  simp [sizeAt, setSize]

@[simp] theorem sizeAt_setNext (mem : Mem) (block value : Nat) :
    sizeAt (setNext mem block value) block = sizeAt mem block :=
  Mem.le_put_apart mem _ _ value (by omega)

theorem Header.setNext (header : Header mem tag block) (value : Nat) :
    Header (setNext mem block.addr value) tag block :=
  ⟨(Mem.le_put_apart mem _ _ value (by omega)).trans header.magic,
    (Mem.le_put_apart mem _ _ value (by omega)).trans header.canary, (sizeAt_setNext mem _ value).trans header.size⟩

theorem Header.setSize {resized : Block} (header : Header mem tag block) (same : resized.addr = block.addr)
    (small : resized.size < 2 ^ 32) : Header (setSize mem block.addr resized.size) tag resized := by
  refine ⟨?_, ?_, ?_⟩ <;> rw [same]
  · exact (Mem.le_put_apart mem _ _ _ (by omega)).trans header.magic
  · exact (Mem.le_put_apart mem _ _ _ (by omega)).trans header.canary
  · rw [sizeAt_setSize, Nat.mod_eq_of_lt small]

theorem setNext_changes (mem : Mem) (block : Block) (value : Nat) :
    Mem.ChangesOnly [block.span] mem (setNext mem block.addr value) :=
  Mem.put_changes mem value (by simp) (by simp [headerSize]; omega)

theorem setSize_changes (mem : Mem) (block : Block) (value : Nat) :
    Mem.ChangesOnly [block.span] mem (setSize mem block.addr value) :=
  Mem.put_changes mem value (by simp) (by simp [headerSize]; omega)

theorem setMagic_changes (mem : Mem) (block : Block) (value : Nat) :
    Mem.ChangesOnly [block.span] mem (setMagic mem block.addr value) :=
  Mem.put_changes mem value (by simp) (by simp [headerSize]; omega)

theorem setCanary_changes (mem : Mem) (block : Block) (value : Nat) :
    Mem.ChangesOnly [block.span] mem (setCanary mem block.addr value) :=
  Mem.put_changes mem value (by simp) (by simp [headerSize]; omega)

/-- Following `next` from `first` visits the blocks and arrives at `last`. -/
def Seg (mem : Mem) : Nat → List Block → Nat → Prop
  | first, [], last => first = last
  | first, block :: rest, last => first = block.addr ∧ Seg mem (nextAt mem block.addr) rest last

theorem seg_append {upper : List Block} :
    Seg mem first (lower ++ upper) last ↔ ∃ middle, Seg mem first lower middle ∧ Seg mem middle upper last := by
  induction lower generalizing first with
  | nil => simp [Seg]
  | cons block rest ih => simp [Seg, ih, and_assoc]

theorem seg_concat :
    Seg mem first (lower ++ [block]) last ↔ Seg mem first lower block.addr ∧ nextAt mem block.addr = last := by
  rw [seg_append]
  constructor
  · rintro ⟨_, front, rfl, back⟩
    exact ⟨front, back⟩
  · rintro ⟨front, back⟩
    exact ⟨_, front, rfl, back⟩

theorem Seg.frame {blocks : List Block} (seg : Seg before first blocks last)
    (same : ∀ block ∈ blocks, nextAt after block.addr = nextAt before block.addr) : Seg after first blocks last := by
  induction blocks generalizing first with
  | nil => exact seg
  | cons block rest ih =>
    refine ⟨seg.1, ?_⟩
    rw [same block mem_cons_self]
    exact ih seg.2 (fun other member => same other (mem_cons_of_mem _ member))

theorem Seg.changes {spans : List Span} {blocks : List Block} (seg : Seg before first blocks last)
    (changes : Mem.ChangesOnly spans before after) (apart : ∀ block ∈ blocks, ∀ span ∈ spans, span.Apart block.span) :
    Seg after first blocks last :=
  seg.frame fun block member => nextAt_frame (header_agree changes (apart block member))

/-- What the code relies on when it walks the list from `first`. -/
structure FreeList (mem : Mem) (first : Nat) (free : List Block) : Prop where
  chain : Seg mem first free 0
  headers : ∀ block ∈ free, Header mem heapMagicFree block
  sorted : free.Pairwise Block.Before
  bounded : ∀ block ∈ free, block.Bounded

theorem FreeList.changes {spans : List Span} (list : FreeList before first free)
    (changes : Mem.ChangesOnly spans before after) (apart : ∀ block ∈ free, ∀ span ∈ spans, span.Apart block.span) :
    FreeList after first free :=
  ⟨list.chain.changes changes apart,
    fun block member => (list.headers block member).frame (header_agree changes (apart block member)),
    list.sorted, list.bounded⟩

theorem FreeList.tail {rest : List Block} (list : FreeList mem first (block :: rest)) :
    FreeList mem (nextAt mem block.addr) rest :=
  ⟨list.chain.2, fun other member => list.headers other (mem_cons_of_mem _ member),
    (pairwise_cons.mp list.sorted).2, fun other member => list.bounded other (mem_cons_of_mem _ member)⟩

theorem FreeList.unique {other : List Block} (list : FreeList mem first free) (also : FreeList mem first other) :
    free = other := by
  induction free generalizing first other with
  | nil =>
    have empty : first = 0 := list.chain
    cases other with
    | nil => rfl
    | cons block rest =>
      have positive := (also.bounded block mem_cons_self).1
      have here := also.chain.1
      omega
  | cons block rest ih =>
    have positive := (list.bounded block mem_cons_self).1
    have here := list.chain.1
    cases other with
    | nil =>
      have empty : first = 0 := also.chain
      omega
    | cons twin others =>
      have addr : block.addr = twin.addr := here.symm.trans also.chain.1
      have size : block.size = twin.size := by
        rw [← (list.headers block mem_cons_self).size, addr, (also.headers twin mem_cons_self).size]
      obtain rfl : block = twin := by
        cases block
        cases twin
        simp only [Block.mk.injEq]
        exact ⟨addr, size⟩
      rw [ih list.tail also.tail]

theorem FreeList.apart (list : FreeList mem first free) {one other : Block} (left : one ∈ free)
    (right : other ∈ free) (different : one ≠ other) : one.span.Apart other.span := by
  have : Std.Symm fun one other : Block => one.span.Apart other.span := ⟨fun _ _ gap => gap.symm⟩
  exact (list.sorted.imp Block.Before.apart).forall left right different

def linkAfter (link : Link) : List Block → Link
  | [] => link
  | block :: rest => linkAfter (.next block.addr) rest

@[simp] theorem linkAfter_concat (link : Link) (lower : List Block) (block : Block) :
    linkAfter link (lower ++ [block]) = .next block.addr := by
  induction lower generalizing link with
  | nil => rfl
  | cons other rest ih => exact ih _

theorem store_changes (heap : State π) (lower : List Block) (value : Nat) :
    Mem.ChangesOnly (lower.map Block.span) heap.mem (heap.store (linkAfter .head lower) value).mem := by
  rcases eq_nil_or_concat lower with rfl | ⟨others, block, rfl⟩
  · exact Mem.ChangesOnly.refl _ _
  · simp only [concat_eq_append, linkAfter_concat, State.store]
    exact (setNext_changes heap.mem block value).mono (by simp)

@[simp] theorem store_total (heap : State π) (link : Link) (value : Nat) :
    (heap.store link value).total = heap.total := by cases link <;> rfl
@[simp] theorem store_used (heap : State π) (link : Link) (value : Nat) :
    (heap.store link value).used = heap.used := by cases link <;> rfl
@[simp] theorem store_ready (heap : State π) (link : Link) (value : Nat) :
    (heap.store link value).ready = heap.ready := by cases link <;> rfl
@[simp] theorem store_pmm (heap : State π) (link : Link) (value : Nat) :
    (heap.store link value).pmm = heap.pmm := by cases link <;> rfl

theorem FreeList.store {heap : State π} {upper : List Block} {middle target : Nat}
    (front : Seg heap.mem heap.freeList lower middle) (back : Seg heap.mem target upper 0)
    (headers : ∀ block ∈ lower ++ upper, Header heap.mem heapMagicFree block)
    (sorted : (lower ++ upper).Pairwise Block.Before) (bounded : ∀ block ∈ lower ++ upper, block.Bounded)
    (small : target < 2 ^ 64) :
    FreeList (heap.store (linkAfter .head lower) target).mem (heap.store (linkAfter .head lower) target).freeList
      (lower ++ upper) := by
  rcases eq_nil_or_concat lower with rfl | ⟨others, block, rfl⟩
  · exact ⟨back, headers, sorted, bounded⟩
  · simp only [concat_eq_append, linkAfter_concat, State.store] at *
    have changes := setNext_changes heap.mem block target
    obtain ⟨order, _, across⟩ := pairwise_append.mp sorted
    obtain ⟨_, _, around⟩ := pairwise_append.mp order
    have below : ∀ other ∈ others, other.span.Apart block.span :=
      fun other member => (around other member block (by simp)).apart
    have above : ∀ other ∈ upper, block.span.Apart other.span :=
      fun other member => (across block (by simp) other member).apart
    refine ⟨?_, ?_, sorted, bounded⟩
    · rw [seg_append]
      refine ⟨target, seg_concat.mpr ⟨?_, ?_⟩, ?_⟩
      · exact (seg_concat.mp front).1.changes changes (by
          intro other member span changed
          rw [mem_singleton.mp changed]
          exact (below other member).symm)
      · rw [nextAt_setNext, Nat.mod_eq_of_lt small]
      · exact back.changes changes (by
          intro other member span changed
          rw [mem_singleton.mp changed]
          exact above other member)
    · intro other member
      have header := headers other member
      simp only [mem_append, mem_singleton] at member
      rcases member with (lowerBlock | rfl) | upperBlock
      · exact header.frame (header_agree changes (by simpa using (below other lowerBlock).symm))
      · exact header.setNext target
      · exact header.frame (header_agree changes (by simpa using above other upperBlock))

theorem seek_some {heap : State π} {address fuel : Nat} (link : Link) {found : Link}
    (chain : Seg heap.mem (heap.load link) free 0) (bounded : ∀ block ∈ free, block.Bounded)
    (result : seek heap address fuel link = some found) :
    ∃ lower upper, free = lower ++ upper ∧ found = linkAfter link lower ∧
      (∀ block ∈ lower, block.addr < address) ∧ (∀ block ∈ upper.head?, address ≤ block.addr) ∧
      Seg heap.mem (heap.load found) upper 0 := by
  induction fuel generalizing link free with
  | zero => cases result
  | succ fuel ih =>
    simp only [seek] at result
    split at result
    next continues =>
      cases free with
      | nil => exact absurd chain continues.1
      | cons block rest =>
        obtain ⟨here, chain⟩ := chain
        rw [here] at result continues
        obtain ⟨lower, upper, rfl, rfl, low, high, back⟩ :=
          ih (.next block.addr) chain (fun other member => bounded other (mem_cons_of_mem _ member)) result
        refine ⟨block :: lower, upper, rfl, rfl, ?_, high, back⟩
        intro other member
        rcases mem_cons.mp member with rfl | member
        · exact continues.2
        · exact low other member
    next stops =>
      cases result
      refine ⟨[], free, rfl, rfl, by simp, ?_, chain⟩
      intro block first
      cases free with
      | nil => simp at first
      | cons other rest =>
        obtain rfl : other = block := by simpa using first
        have positive := (bounded other mem_cons_self).1
        rw [chain.1] at stops
        omega

theorem seek_returns (heap : State π) (address fuel : Nat) (link : Link)
    (chain : Seg heap.mem (heap.load link) free 0) (enough : free.length < fuel) :
    ∃ found, seek heap address fuel link = some found := by
  induction fuel generalizing link free with
  | zero => omega
  | succ fuel ih =>
    simp only [seek]
    split
    next continues =>
      cases free with
      | nil => exact absurd chain continues.1
      | cons block rest =>
        rw [chain.1]
        exact ih (.next block.addr) chain.2 (by simp only [length_cons] at enough; omega)
    next => exact ⟨link, rfl⟩

theorem findPrevious_some {address fuel found : Nat} (chain : Seg mem first (lower ++ [block]) address)
    (positive : ∀ other ∈ lower ++ [block], 0 < other.addr)
    (different : ∀ other ∈ lower, nextAt mem other.addr ≠ address)
    (result : findPrevious mem address fuel first = some found) : found = block.addr := by
  induction fuel generalizing first lower with
  | zero => cases result
  | succ fuel ih =>
    simp only [findPrevious] at result
    cases lower with
    | nil =>
      obtain ⟨rfl, last⟩ := chain
      simp only [Seg] at last
      simp only [last, ne_eq, not_true_eq_false, and_false, if_false, Option.some.injEq] at result
      exact result.symm
    | cons other rest =>
      obtain ⟨rfl, chain⟩ := chain
      have nonzero : other.addr ≠ 0 := by
        have := positive other (by simp)
        omega
      simp only [nonzero, different other mem_cons_self, ne_eq, not_false_eq_true, and_self, if_true] at result
      exact ih chain (fun old member => positive old (mem_cons_of_mem _ member))
        (fun old member => different old (mem_cons_of_mem _ member)) result

theorem findPrevious_returns (address fuel : Nat) (chain : Seg mem first free 0) (enough : free.length < fuel) :
    ∃ found, findPrevious mem address fuel first = some found := by
  induction fuel generalizing first free with
  | zero => omega
  | succ fuel ih =>
    simp only [findPrevious]
    split
    next continues =>
      cases free with
      | nil => exact absurd chain continues.1
      | cons block rest =>
        rw [chain.1]
        exact ih chain.2 (by simp only [length_cons] at enough; omega)
    next => exact ⟨first, rfl⟩

end GWKernel.Heap
