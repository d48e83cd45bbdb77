import GWKernel.Process
import GWKernel.Proofs.HeapFreeList
import GWKernel.Proofs.PmmSafety

/-! The fixed addresses of a user program against the page allocator: `pmm_init` protects none of
them. -/

namespace GWKernel.Heap
open Lib Pmm Option

variable {π : Type} {fuel : Nat} {heap after : State π}

private theorem coalescePrevious_pmm {block : Nat} (result : coalescePrevious fuel block heap = some after) :
    after.pmm = heap.pmm := by
  unfold coalescePrevious at result
  split at result
  · cases result
    rfl
  · simp only [bind_eq_bind, bind_eq_some_iff] at result
    obtain ⟨previous, _, result⟩ := result
    split at result <;> cases result <;> rfl

theorem insertFree_pmm {block : Nat} (result : insertFree fuel block heap = some after) : after.pmm = heap.pmm := by
  simp only [insertFree, bind_eq_bind, bind_eq_some_iff] at result
  obtain ⟨link, _, result⟩ := result
  split at result
  · cases result
    simp
  · exact (coalescePrevious_pmm result).trans (by simp)

theorem takeBlock_pmm {need block : Nat} {link : Link} (result : takeBlock fuel need link block heap = some after) :
    after.pmm = heap.pmm := by
  simp only [takeBlock, bind_eq_bind] at result
  split at result
  · simp only [bind_eq_some_iff, Option.some.injEq] at result
    obtain ⟨inserted, done, _, rfl, rfl⟩ := result
    exact (insertFree_pmm done).trans (by simp)
  · simp only [bind_some, Option.some.injEq] at result
    subst result
    simp

@[simp] theorem placePointer_pmm (align block : Nat) (heap : State π) : (placePointer align block heap).2.pmm = heap.pmm := by
  unfold placePointer
  split <;> rfl

section
variable {allocPages : PageSource π} {invariant : π → Prop}
  (kept : ∀ pages pmm, invariant pmm → invariant (allocPages pages pmm).2) (initial : invariant heap.pmm)
include kept initial

theorem expandHeap_keeps {need : Nat} {expanded : Bool}
    (result : expandHeap allocPages fuel need heap = some (expanded, after)) : invariant after.pmm := by
  have next := kept (expandPages need) heap.pmm initial
  simp only [expandHeap] at result
  split at result
  · cases result
    exact next
  · simp only [bind_eq_bind, bind_eq_some_iff, Option.some.injEq, Prod.mk.injEq] at result
    obtain ⟨_, inserted, _, rfl⟩ := result
    rw [insertFree_pmm inserted]
    exact next

theorem heapInit_keeps {done : Bool} (result : heapInit allocPages fuel heap = some (done, after)) :
    invariant after.pmm := by
  simp only [heapInit, bind_eq_bind, bind_eq_some_iff] at result
  obtain ⟨⟨expanded, grown⟩, expansion, result⟩ := result
  have next : invariant grown.pmm := by
    refine expandHeap_keeps kept ?_ expansion
    exact initial
  simp only at result
  split at result <;> cases result <;> exact next

private theorem kmallocLoop_keeps {size align need rounds ptr : Nat}
    (result : kmallocLoop allocPages fuel size align need rounds heap = some (ptr, after)) : invariant after.pmm := by
  induction rounds generalizing heap with
  | zero => cases result
  | succ rounds ih =>
    simp only [kmallocLoop, bind_eq_bind, bind_eq_some_iff] at result
    obtain ⟨fit, _, result⟩ := result
    cases fit with
    | corrupt =>
      cases result
      exact initial
    | found link block =>
      obtain ⟨taken, took, result⟩ := bind_eq_some_iff.mp result
      split at result
      next => cases result
      next =>
        cases result
        simpa only [placePointer_pmm, takeBlock_pmm took] using initial
    | absent =>
      simp only [bind_eq_some_iff] at result
      obtain ⟨⟨expanded, grown⟩, expansion, result⟩ := result
      have next := expandHeap_keeps kept initial expansion
      simp only at result
      split at result
      · exact ih next result
      · cases result
        exact next

theorem kmallocAligned_keeps {size align ptr : Nat}
    (result : kmallocAligned allocPages fuel size align heap = some (ptr, after)) : invariant after.pmm := by
  unfold kmallocAligned at result
  split at result
  · cases result
    exact initial
  · exact kmallocLoop_keeps kept initial result

end

theorem kfree_pmm {ptr : Nat} (result : kfree fuel ptr heap = some after) : after.pmm = heap.pmm := by
  unfold kfree at result
  split at result
  · cases result
    rfl
  · split at result
    · cases result
      rfl
    · simp only at result
      exact (insertFree_pmm result).trans rfl

end GWKernel.Heap

namespace GWKernel.Process
open Lib Pmm

/-- `pmm_alloc_pages`, with the allocations recorded. -/
def clientPages : Heap.PageSource Client := fun pages client =>
  ((pmmAllocPages pages client.pmm).1, client.grant pages (pmmAllocPages pages client.pmm))

inductive KernelCall where
  | pmm (call : Pmm.Call)
  | heapInit
  | kmalloc (size align : Nat)
  | kfree (ptr : Nat)

inductive KernelStep : Heap.State Client → KernelCall → Heap.State Client → Prop where
  | pmm {heap : Heap.State Client} {call : Pmm.Call} {client : Client} (moves : Pmm.Step heap.pmm call client) :
      KernelStep heap (.pmm call) { heap with pmm := client }
  | heapInit {heap after : Heap.State Client} {fuel : Nat} {done : Bool}
      (returned : Heap.heapInit clientPages fuel heap = some (done, after)) : KernelStep heap .heapInit after
  | kmalloc {heap after : Heap.State Client} {fuel size align ptr : Nat}
      (returned : Heap.kmallocAligned clientPages fuel size align heap = some (ptr, after)) :
      KernelStep heap (.kmalloc size align) after
  | kfree {heap after : Heap.State Client} {fuel ptr : Nat} (returned : Heap.kfree fuel ptr heap = some after) :
      KernelStep heap (.kfree ptr) after

theorem KernelStep.sound {pool : Nat → Prop} (lowest : ¬pool 0) {before after : Heap.State Client} {call : KernelCall}
    (sound : before.pmm.Sound pool) (moves : KernelStep before call after) : after.pmm.Sound pool := by
  have granted : ∀ pages client, Client.Sound pool client → Client.Sound pool (clientPages pages client).2 :=
    fun pages client sound => sound.step lowest (Pmm.Step.allocPages client pages)
  cases moves with
  | pmm moves => exact sound.step lowest moves
  | heapInit returned => exact Heap.heapInit_keeps granted sound returned
  | kmalloc returned => exact Heap.kmallocAligned_keeps granted sound returned
  | kfree returned =>
    rw [Heap.kfree_pmm returned]
    exact sound

theorem lift_run (heap : Heap.State Client) {calls : List Pmm.Call} {first last : Client} (run : Run Pmm.Step first calls last) :
    Run KernelStep { heap with pmm := first } (calls.map .pmm) { heap with pmm := last } := by
  induction run with
  | done _ => exact .done _
  | @next state middle _ _ _ moves _ ih =>
    exact .next (KernelStep.pmm (show Pmm.Step ({ heap with pmm := state } : Heap.State Client).pmm _ middle from moves)) ih

def UserWrites (program : List UInt8) (address : Nat) : Prop :=
  ∃ state, (userEnter (fun _ _ state => state) program state).2.mem address ≠ state.mem address

theorem userWrites_iff (program : List UInt8) (address : Nat) :
    UserWrites program address ↔
      userCodeFallback ≤ address ∧ address < userCodeFallback + program.length ∨
      userStackTop - 0x1000 ≤ address ∧ address < userStackTop := by
  have effect : ∀ state : State, (userEnter (fun _ _ state => state) program state).2.mem =
      (state.mem.copy userCodeFallback program).fill (userStackTop - 0x1000) 0x1000 0 := by
    intro state
    simp only [userEnter, enterAt]
    split <;> rfl
  have page : userStackTop - 0x1000 + 0x1000 = userStackTop := by decide
  unfold UserWrites
  simp only [effect, Mem.fill, Mem.copy, page]
  constructor
  · rintro ⟨state, changed⟩
    by_cases stack : userStackTop - 0x1000 ≤ address ∧ address < userStackTop
    · exact .inr stack
    · by_cases code : userCodeFallback ≤ address ∧ address < userCodeFallback + program.length
      · exact .inl code
      · rw [if_neg stack, if_neg code] at changed
        exact absurd rfl changed
  · -- Whatever the byte becomes, some memory held another one.
    intro inside
    by_cases stack : userStackTop - 0x1000 ≤ address ∧ address < userStackTop
    · refine ⟨⟨fun _ => 1, ⟨1, false, 0⟩, 1, 0⟩, ?_⟩
      rw [if_pos stack]
      exact (by decide : (0 : UInt8) ≠ 1)
    · have code := inside.resolve_right stack
      refine ⟨⟨fun _ => program.getD (address - userCodeFallback) 0 + 1, ⟨1, false, 0⟩, 1, 0⟩, ?_⟩
      rw [if_neg stack, if_pos code]
      simp

def booted (heap : Heap.State Client) (state : Pmm.State) : Heap.State Client := { heap with pmm := ⟨state, []⟩ }

/-- The user window stays clear of the pages in use, exactly if the memory map offers no page of
it. -/
theorem user_window_clear_iff {mem : Mem} {bi : Nat} {info : BootInfo} {state : Pmm.State}
    (accepted : pmmInit mem bi info = some state) (heap : Heap.State Client) (program : List UInt8) :
    (∀ calls after, Run KernelStep (booted heap state) calls after → ∀ held ∈ after.pmm.outstanding,
      ∀ address, UserWrites program address → ¬held.Holds (address / pageSize)) ↔
    ∀ address, UserWrites program address → ¬Allocatable mem bi info (address / pageSize) := by
  constructor
  · intro clear address writes offered
    obtain ⟨calls, client, run, held, member, holds⟩ := (handed_out_iff accepted _).mpr offered
    exact clear _ _ (lift_run heap run) held member address writes holds
  · intro absent calls after run held member address writes holds
    have kept : ∀ before call later, Client.Sound (Allocatable mem bi info) before.pmm → KernelStep before call later →
        Client.Sound (Allocatable mem bi info) later.pmm :=
      fun _ _ _ sound moves => moves.sound (page_zero_reserved mem bi info) sound
    have sound := run.preserves kept (sound_initial accepted)
    exact absent address writes (sound.used held member _ holds).1

def highMachine : Mem := singleDescriptor 0x310000 efiConventionalMemory 0x800000 64

theorem highMachine_descriptors :
    descriptors highMachine smallBootInfo = [⟨efiConventionalMemory, 0x800000, 64⟩] := by
  decide

theorem user_window_clear_high_machine :
    ∃ state, pmmInit highMachine 0x300000 smallBootInfo = some state ∧
      ∀ heap program, program.length ≤ 0x2000 → ∀ calls after, Run KernelStep (booted heap state) calls after →
        ∀ held ∈ after.pmm.outstanding, ∀ address, UserWrites program address → ¬held.Holds (address / pageSize) := by
  obtain ⟨state, accepted⟩ := pmmInit_some highMachine 0x300000 smallBootInfo (by decide) rfl (by decide)
  refine ⟨state, accepted, fun heap program short => (user_window_clear_iff accepted heap program).mpr ?_⟩
  rintro address writes ⟨_, ⟨entry, listed, _, low, _⟩, _⟩
  rw [highMachine_descriptors, List.mem_singleton] at listed
  subst listed
  rw [userWrites_iff] at writes
  simp only [userCodeFallback, userStackTop, pageSize] at writes low
  omega

/-- With usable memory from 4 MiB on, the first 64 pages handed out contain the user stack. -/
theorem user_stack_overwrites_allocation :
    ∃ state, pmmInit smallMachine 0x300000 smallBootInfo = some state ∧
      ∀ heap program, ∃ after, Run KernelStep (booted heap state) [.pmm (.allocPages 64)] after ∧
        ∃ held ∈ after.pmm.outstanding, ∃ address, UserWrites program address ∧ held.Holds (address / pageSize) := by
  obtain ⟨state, accepted⟩ := pmmInit_some smallMachine 0x300000 smallBootInfo (by decide) rfl (by decide)
  have run : HasRun state 64 := by
    refine ⟨0x400, pmmInit_highestPage accepted (@smallMachine_allocatable 0x43F (by omega) (by omega)), ?_⟩
    exact fun page low high => (free_pmmInit accepted page).mpr (smallMachine_allocatable low (by omega))
  obtain ⟨start, address, takes⟩ := pmmAllocPages_grants (pmmInit_ready accepted) (by omega) run
  -- Only pages 0x400 to 0x43F are free, so the run of 64 pages is all of them.
  have free : ∀ page, start ≤ page → page < start + 64 → 0x400 ≤ page ∧ page < 0x440 := by
    intro page low high
    obtain ⟨_, ⟨entry, listed, _, above, below⟩, _⟩ := (free_pmmInit accepted page).mp (takes.free page low high)
    rw [smallMachine_descriptors, List.mem_singleton] at listed
    subst listed
    simp only [pageSize, u64] at above below
    omega
  have first := (free start (by omega) (by omega)).1
  have last := (free (start + 63) (by omega) (by omega)).2
  obtain rfl : start = 0x400 := by omega
  refine ⟨state, accepted, fun heap program => ⟨_, .next (.pmm (Pmm.Step.allocPages _ 64)) (.done _), ?_⟩⟩
  have granted : (pmmAllocPages 64 state).1 ≠ 0 := by
    rw [address]
    decide
  refine ⟨⟨0x400 * pageSize, 64⟩, ?_, 0x402000, ?_, by simp only [Allocation.Holds, pageSize]; omega⟩
  · change _ ∈ (Client.grant ⟨state, []⟩ 64 (pmmAllocPages 64 state)).outstanding
    rw [Client.grant_some granted, address]
    exact List.mem_cons_self
  · rw [userWrites_iff]
    exact .inr (by decide)

end GWKernel.Process
