import GWKernel.Proofs.PmmBitmap

/-! Allocation and release over whole runs: pages handed out are exclusive, usable and outside the
protected regions. -/

namespace GWKernel.Pmm
open Lib List

@[simp] theorem bitmapSet_keeps (state : State) (page : Nat) :
    (bitmapSet state page).highestPage = state.highestPage ∧ (bitmapSet state page).ready = state.ready := by
  unfold bitmapSet
  split <;> exact ⟨rfl, rfl⟩

@[simp] theorem bitmapClear_keeps (state : State) (page : Nat) :
    (bitmapClear state page).highestPage = state.highestPage ∧ (bitmapClear state page).ready = state.ready := by
  unfold bitmapClear
  split <;> exact ⟨rfl, rfl⟩

@[simp] theorem markRangeUsed_highestPage (state : State) (phys size : Nat) :
    (markRangeUsed state phys size).highestPage = state.highestPage := by
  unfold markRangeUsed
  split
  · rfl
  · apply forRange_keeps State.highestPage
    intro page current
    unfold markPageUsed
    split
    · rfl
    · exact (bitmapSet_keeps current page).1

theorem scanDescriptor_highestPage (state : State) (entry : EfiMemoryDescriptor) :
    (scanDescriptor state entry).highestPage =
      max state.highestPage (u64 (entry.physicalStart / pageSize + entry.numberOfPages)) := by
  have cleared : ∀ lo hi current, (forRange lo hi clearPage current).highestPage = current.highestPage := by
    intro lo hi current
    apply forRange_keeps State.highestPage
    intro page current
    unfold clearPage
    split
    · exact (bitmapClear_keeps current page).1
    · rfl
  simp only [scanDescriptor]
  split
  · exact cleared _ _ _
  · rfl

theorem scan_highestPage (entries : List EfiMemoryDescriptor) (state : State) (page : Nat)
    (covered : page < state.highestPage ∨ ∃ entry ∈ entries, Covers entry page) :
    page < (entries.foldl scanDescriptor state).highestPage := by
  induction entries generalizing state with
  | nil => simpa using covered
  | cons entry entries ih =>
    apply ih
    rw [scanDescriptor_highestPage]
    simp only [mem_cons, exists_eq_or_imp] at covered
    rcases covered with before | here | later
    · exact .inl (by omega)
    · exact .inl (by have bound := here.2.2; omega)
    · exact .inr later

variable {state : State} {page count size next start found : Nat}

theorem pmmInit_ready {mem : Mem} {bi : Nat} {info : BootInfo} (accepted : pmmInit mem bi info = some state) :
    state.ready = true := by
  unfold pmmInit at accepted
  split at accepted
  · cases accepted
  · simp only [Option.some.injEq] at accepted
    rw [← accepted]

theorem pmmInit_highestPage {mem : Mem} {bi : Nat} {info : BootInfo} (accepted : pmmInit mem bi info = some state)
    (free : Allocatable mem bi info page) : page < state.highestPage := by
  have counted : ∀ hi current, (forRange 0 hi countUsed current).highestPage = current.highestPage := by
    intro hi current
    apply forRange_keeps State.highestPage
    intro page current
    unfold countUsed
    split <;> rfl
  have reached := scan_highestPage (descriptors mem info)
    { bitmap := fun _ => 0xFF#8, total := 0, used := 0, highestPage := 0, ready := false } page (.inr free.2.1)
  have bound := free.1
  unfold pmmInit at accepted
  split at accepted
  · cases accepted
  · simp only [Option.some.injEq] at accepted
    subst accepted
    simp only [apply_ite State.highestPage, markRangeUsed_highestPage, ite_self, counted]
    omega

theorem findRun_some {run : Nat} (open' : run ≠ 0 → start + run = next)
    (free : ∀ page, next ≤ page + run → page < next → Free state page)
    (result : findRun state count (List.range' next size) run start = some found) :
    found + count ≤ next + size ∧ ∀ page, found ≤ page → page < found + count → Free state page := by
  induction size generalizing next run start with
  | zero => cases result
  | succ size ih =>
    simp only [List.range'_succ] at result
    unfold findRun at result
    split at result
    · have rest := @ih (next + 1) _ 0 (by simp) (by omega) result
      exact ⟨by omega, rest.2⟩
    next unused =>
      have here : Free state next := by simpa [Free] using unused
      have longer : ∀ page, next + 1 ≤ page + (run + 1) → page < next + 1 → Free state page := by
        intro page low high
        by_cases last : page = next
        · exact last ▸ here
        · exact free page (by omega) (by omega)
      simp only at result
      by_cases first : run = 0
      · simp only [first, if_true] at result longer
        split at result
        next complete =>
          cases result
          exact ⟨by omega, fun page low high => longer page (by omega) (by omega)⟩
        next =>
          have rest := @ih (next + 1) _ (0 + 1) (by omega) longer result
          exact ⟨by omega, rest.2⟩
      · simp only [first, if_false] at result
        have aligned := open' first
        split at result
        next complete =>
          cases result
          exact ⟨by omega, fun page low high => longer page (by omega) (by omega)⟩
        next =>
          have rest := @ih (next + 1) _ (run + 1) (by omega) longer result
          exact ⟨by omega, rest.2⟩

private theorem findRun_complete {state : State} {count size next run start target : Nat}
    (short : run < count) (free : ∀ page, target ≤ page → page < target + count → Free state page)
    (within : target + count ≤ next + size) (ahead : next ≤ target + run) :
    ∃ found, findRun state count (List.range' next size) run start = some found := by
  induction size generalizing next run start with
  | zero => omega
  | succ size ih =>
    simp only [List.range'_succ]
    unfold findRun
    split
    next used =>
      have outside : next < target := by
        apply Nat.lt_of_not_le
        intro inside
        exact not_free.mpr used (free next inside (by omega))
      exact ih (by omega) (by omega) (by omega)
    next =>
      by_cases complete : run + 1 = count
      · exact ⟨_, by rw [if_pos complete]⟩
      · simp only [complete, if_false]
        exact ih (by omega) (by omega) (by omega)

theorem free_takePages (state : State) (start count page : Nat) :
    Free (forRange 0 count (takePage start) state) page ↔
      Free state page ∧ ¬(start ≤ page ∧ page < start + count) := by
  apply forRange_rule _ _ (fun index current =>
    Free current page ↔ Free state page ∧ ¬(start ≤ page ∧ page < start + index)) (by omega)
  · simp
  · intro index current _ _ same
    have taken : Free (takePage start index current) page ↔ Free current page ∧ page ≠ start + index :=
      (free_congr rfl).trans (free_bitmapSet current (start + index) page)
    rw [taken, same, and_assoc]
    apply and_congr_right
    omega

/-- What a successful allocation of `count` pages at page `start` does. -/
structure Takes (before after : State) (start count : Nat) : Prop where
  nonempty : 0 < count
  free : ∀ page, start ≤ page → page < start + count → Free before page
  managed : start + count ≤ before.highestPage
  taken : ∀ page, Free after page ↔ Free before page ∧ ¬(start ≤ page ∧ page < start + count)
  highest : after.highestPage = before.highestPage
  ready : after.ready = before.ready

def RunAt (state : State) (count start : Nat) : Prop :=
  start + count ≤ state.highestPage ∧ ∀ page, start ≤ page → page < start + count → Free state page

def HasRun (state : State) (count : Nat) : Prop := ∃ start, RunAt state count start

theorem findRun_append {pages : List Nat} {run : Nat} (result : findRun state count pages run start = some found)
    (more : List Nat) : findRun state count (pages ++ more) run start = some found := by
  induction pages generalizing run start with
  | nil => cases result
  | cons page pages ih =>
    rw [cons_append, findRun] at *
    split at result
    next used => rw [if_pos used, ih result]
    next free =>
      rw [if_neg free]
      dsimp only at result ⊢
      split at result
      next complete => rw [if_pos complete, result]
      next short => rw [if_neg short, ih result]

theorem findRun_least (nonempty : 0 < count)
    (result : findRun state count (List.range state.highestPage) 0 0 = some found) :
    RunAt state count found ∧ ∀ other, RunAt state count other → found ≤ other := by
  have spot := findRun_some (by simp) (by omega) (range_eq_range' ▸ result)
  refine ⟨⟨by omega, spot.2⟩, fun other run => ?_⟩
  obtain ⟨first, early⟩ :=
    @findRun_complete state count (other + count) 0 0 0 other nonempty run.2 (by omega) (by omega)
  have before := findRun_some (by simp) (by omega) early
  have whole := findRun_append early (List.range' (other + count) (state.highestPage - (other + count)))
  rw [show List.range' (other + count) _ = List.range' (0 + 1 * (other + count)) _ by rw [Nat.zero_add, Nat.one_mul],
    List.range'_append, Nat.add_sub_of_le run.1, ← range_eq_range', result] at whole
  cases whole
  omega

def searchPages (count : Nat) (state : State) : Nat × State :=
  match findRun state count (List.range state.highestPage) 0 0 with
  | some start => (start * pageSize, forRange 0 count (takePage start) state)
  | none => (0, state)

theorem findPage_eq (pages : List Nat) (start : Nat) : findPage state pages = findRun state 1 pages 0 start := by
  induction pages with
  | nil => rfl
  | cons page pages ih =>
    rw [findPage, findRun, ih]
    rfl

theorem pmmAllocPage_eq (state : State) :
    pmmAllocPage state = if state.ready then searchPages 1 state else (0, state) := by
  unfold pmmAllocPage searchPages
  rw [findPage_eq _ 0]
  cases findRun state 1 (List.range state.highestPage) 0 0 <;> rfl

theorem pmmAllocPages_eq (nonempty : 0 < count) :
    pmmAllocPages count state = if state.ready then searchPages count state else (0, state) := by
  unfold pmmAllocPages
  by_cases single : count = 1
  · rw [single, pmmAllocPage_eq]
    cases state.ready <;> rfl
  · rw [if_neg single, show decide (count = 0) = false by simp; omega, Bool.or_false]
    cases state.ready <;> rfl

theorem pmmAllocPage_one (state : State) : pmmAllocPage state = pmmAllocPages 1 state := by
  rw [pmmAllocPage_eq, pmmAllocPages_eq Nat.one_pos]

private theorem takes_run (nonempty : 0 < count) (run : RunAt state count start) :
    Takes state (forRange 0 count (takePage start) state) start count := by
  refine ⟨nonempty, run.2, run.1, free_takePages state start count, ?_, ?_⟩
  · exact forRange_keeps State.highestPage (takePage start)
      (fun index current => (bitmapSet_keeps current (start + index)).1) 0 count state
  · exact forRange_keeps State.ready (takePage start)
      (fun index current => (bitmapSet_keeps current (start + index)).2) 0 count state

theorem searchPages_cases (nonempty : 0 < count) :
    (∃ start, searchPages count state = (start * pageSize, forRange 0 count (takePage start) state) ∧
      RunAt state count start ∧ ∀ other, RunAt state count other → start ≤ other) ∨
    ¬HasRun state count ∧ searchPages count state = (0, state) := by
  unfold searchPages
  split
  next start found => exact .inl ⟨start, rfl, findRun_least nonempty found⟩
  next missed =>
    refine .inr ⟨?_, rfl⟩
    rintro ⟨target, managed, free⟩
    obtain ⟨start, found⟩ := @findRun_complete state count state.highestPage 0 0 0 target nonempty free (by omega) (by omega)
    rw [← range_eq_range', missed] at found
    cases found

theorem pmmAllocPages_grants (ready : state.ready = true) (nonempty : 0 < count) (run : HasRun state count) :
    ∃ start, (pmmAllocPages count state).1 = start * pageSize ∧ Takes state (pmmAllocPages count state).2 start count := by
  rw [pmmAllocPages_eq nonempty, if_pos ready]
  rcases searchPages_cases nonempty with ⟨start, is, spot, _⟩ | ⟨no, _⟩
  · rw [is]
    exact ⟨start, rfl, takes_run nonempty spot⟩
  · exact absurd run no

theorem pmmAllocPage_grants (ready : state.ready = true) (run : HasRun state 1) :
    ∃ start, (pmmAllocPage state).1 = start * pageSize ∧ Takes state (pmmAllocPage state).2 start 1 := by
  rw [pmmAllocPage_one]
  exact pmmAllocPages_grants ready Nat.one_pos run

theorem pmmAllocPages_cases (count : Nat) (state : State) :
    (∃ start, pmmAllocPages count state = (start * pageSize, forRange 0 count (takePage start) state) ∧ 0 < count ∧
      RunAt state count start ∧ ∀ other, RunAt state count other → start ≤ other) ∨
    pmmAllocPages count state = (0, state) := by
  rcases Nat.eq_zero_or_pos count with rfl | nonempty
  · exact .inr (by simp [pmmAllocPages])
  rw [pmmAllocPages_eq nonempty]
  split
  · rcases @searchPages_cases state count nonempty with ⟨start, is, run⟩ | ⟨_, same⟩
    · exact .inl ⟨start, is, nonempty, run⟩
    · exact .inr same
  · exact .inr rfl

theorem pmmAllocPages_spec (count : Nat) (state : State) :
    (∃ start, (pmmAllocPages count state).1 = start * pageSize ∧
      Takes state (pmmAllocPages count state).2 start count) ∨ pmmAllocPages count state = (0, state) := by
  rcases pmmAllocPages_cases count state with ⟨start, is, nonempty, run, _⟩ | same
  · rw [is]
    exact .inl ⟨start, rfl, takes_run nonempty run⟩
  · exact .inr same

theorem pmmAllocPage_spec (state : State) :
    (∃ start, (pmmAllocPage state).1 = start * pageSize ∧ Takes state (pmmAllocPage state).2 start 1) ∨
      pmmAllocPage state = (0, state) := by
  rw [pmmAllocPage_one]
  exact pmmAllocPages_spec 1 state

/-- The page before a run that was handed out is used, or the run would start there. -/
theorem pmmAllocPages_lowest (granted : (pmmAllocPages count state).1 ≠ 0) :
    ¬Free state ((pmmAllocPages count state).1 / pageSize - 1) := by
  rcases pmmAllocPages_cases count state with ⟨start, is, _, run, least⟩ | refused
  · rw [is] at granted ⊢
    have positive : start ≠ 0 := by
      rintro rfl
      exact granted (Nat.zero_mul _)
    rw [Nat.mul_div_cancel start (by decide)]
    intro free
    have lower := least (start - 1) ⟨by have := run.1; omega, fun page low high => ?_⟩
    · omega
    · by_cases first : page = start - 1
      · exact first ▸ free
      · exact run.2 page (by omega) (by omega)
  · rw [refused] at granted
    exact absurd rfl granted

private theorem pmmFreePage_eq (ready : state.ready = true) (managed : page < state.highestPage)
    (used : ¬Free state page) :
    pmmFreePage state (page * pageSize) = { bitmapClear state page with used := state.used - 1 } := by
  unfold pmmFreePage
  simp only [ready, Bool.not_true, Bool.false_or, Nat.mul_mod_left, Nat.mul_div_cancel page (show 0 < pageSize by decide),
    Nat.not_le.mpr managed, not_free.mp used, if_true, if_false, ne_eq, not_true_eq_false, decide_false,
    Bool.false_eq_true]

@[simp] theorem pmmFreePage_keeps (state : State) (phys : Nat) :
    (pmmFreePage state phys).highestPage = state.highestPage ∧ (pmmFreePage state phys).ready = state.ready := by
  unfold pmmFreePage
  repeat' split
  all_goals first | exact ⟨rfl, rfl⟩ | exact bitmapClear_keeps state _

@[simp] theorem pmmFreePages_keeps (state : State) (phys count : Nat) :
    (pmmFreePages state phys count).highestPage = state.highestPage ∧
      (pmmFreePages state phys count).ready = state.ready :=
  ⟨forRange_keeps State.highestPage _ (fun _ current => (pmmFreePage_keeps current _).1) 0 count state,
    forRange_keeps State.ready _ (fun _ current => (pmmFreePage_keeps current _).2) 0 count state⟩

theorem pmmFreePages_spec (ready : state.ready = true) (managed : start + count ≤ state.highestPage)
    (bound : start + count ≤ pmmMaxPages) (used : ∀ page, start ≤ page → page < start + count → ¬Free state page) :
    (pmmFreePages state (start * pageSize) count).used = state.used - count ∧
      ∀ page, Free (pmmFreePages state (start * pageSize) count) page ↔
        Free state page ∨ start ≤ page ∧ page < start + count := by
  have small : pmmMaxPages * pageSize < 2 ^ 64 := by decide
  -- The loop has released the first `index` pages and kept the others used.
  have loop := @forRange_rule _ 0 count
    (fun index current => pmmFreePage current (u64 (start * pageSize + index * pageSize))) state
    (fun index current => current.ready = true ∧ current.highestPage = state.highestPage ∧
      current.used = state.used - index ∧
      ∀ other, Free current other ↔ Free state other ∨ start ≤ other ∧ other < start + index)
    (by omega) ⟨ready, rfl, rfl, by simp⟩
    (by
      intro index current _ below holds
      obtain ⟨isReady, sameHighest, counter, same⟩ := holds
      have address : u64 (start * pageSize + index * pageSize) = (start + index) * pageSize := by
        rw [← Nat.add_mul]
        apply Nat.mod_eq_of_lt
        have scaled := Nat.mul_le_mul_right pageSize (show start + index ≤ pmmMaxPages by omega)
        omega
      have unused : ¬Free current (start + index) := by
        rw [same]
        rintro (free | between)
        · exact used _ (by omega) (by omega) free
        · omega
      rw [address, pmmFreePage_eq isReady (by omega) unused]
      refine ⟨by simpa using isReady, by simpa using sameHighest, by dsimp only; omega, fun other => ?_⟩
      refine (free_congr rfl).trans ((free_bitmapClear current (start + index) other).trans ?_)
      rw [same, or_assoc]
      apply or_congr_right
      omega)
  exact loop.2.2

/-- The lowest run of `count` free pages is handed out: its bits and no others are set, and
`pmm_free_pages` undoes it. -/
structure Granted (before : State) (count start : Nat) (result : Nat × State) : Prop where
  run : RunAt before count start
  lowest : ∀ other, RunAt before count other → start ≤ other
  address : result.1 = start * pageSize
  bits : ∀ page, bitmapTest result.2 page = (bitmapTest before page || decide (start ≤ page ∧ page < start + count))
  restored : ∀ page, bitmapTest (pmmFreePages result.2 result.1 count) page = bitmapTest before page
  used : (pmmFreePages result.2 result.1 count).used = before.used

theorem test_congr {first second : State} (same : Free first page ↔ Free second page) :
    bitmapTest first page = bitmapTest second page := by
  rw [Bool.eq_iff_iff, ← not_free, ← not_free, same]

theorem granted_run (nonempty : 0 < count) (ready : state.ready = true) (counter : state.used ≤ pmmMaxPages)
    (run : RunAt state count start)
    (lowest : ∀ other, RunAt state count other → start ≤ other) :
    Granted state count start (start * pageSize, forRange 0 count (takePage start) state) := by
  have takes := takes_run nonempty run
  have bound := (run.2 (start + count - 1) (by omega) (by omega)).lt
  have small : pmmMaxPages + pmmMaxPages < 2 ^ 64 := by decide
  have taken := forRange_rule (takePage start) state (fun index current => current.used = state.used + index)
    (Nat.zero_le count) rfl fun index current _ _ is => by
      rw [takePage, is, Nat.add_assoc]
      exact Nat.mod_eq_of_lt (by omega)
  obtain ⟨used, free⟩ := pmmFreePages_spec (takes.ready.trans ready) (takes.highest ▸ run.1) (by omega)
    fun page low high free => ((takes.taken page).mp free).2 ⟨low, high⟩
  refine ⟨run, lowest, rfl, fun page => ?_, fun page => test_congr ?_, by rw [used, taken, Nat.add_sub_cancel]⟩
  · have taken := takes.taken page
    by_cases inside : start ≤ page ∧ page < start + count
    · rw [decide_eq_true inside, Bool.or_true, ← not_free, taken]
      exact fun free => free.2 inside
    · rw [decide_eq_false inside, Bool.or_false]
      exact test_congr (taken.trans (by simp [inside]))
  · rw [free, takes.taken]
    constructor
    · rintro (⟨free, _⟩ | inside)
      · exact free
      · exact run.2 page inside.1 inside.2
    · intro free
      by_cases inside : start ≤ page ∧ page < start + count
      · exact .inr inside
      · exact .inl ⟨free, inside⟩

/-- With page 0 used no run is at address 0, so the result 0 is a refusal. The counter of used pages
is at most the number of pages, as it is after `pmm_init` and every later call. -/
theorem pmmAllocPages_exact (started : state.ready = true ∨ state.highestPage = 0)
    (counter : state.used ≤ pmmMaxPages) (first : bitmapTest state 0 = true) (nonempty : 0 < count) :
    pmmAllocPages count state = searchPages count state ∧
      (HasRun state count → ∃ start, (pmmAllocPages count state).1 ≠ 0 ∧
        Granted state count start (pmmAllocPages count state)) ∧
      (¬HasRun state count → pmmAllocPages count state = (0, state)) := by
  have search : pmmAllocPages count state = searchPages count state := by
    rw [pmmAllocPages_eq nonempty]
    rcases started with ready | none
    · rw [if_pos ready]
    · simp [searchPages, none, findRun]
  rw [search]
  refine ⟨rfl, fun run => ?_, fun no => ?_⟩
  · rcases searchPages_cases nonempty with ⟨start, is, spot, lowest⟩ | ⟨no, _⟩
    · rw [is]
      have ready : state.ready = true := started.resolve_right fun none => by have := spot.1; omega
      refine ⟨start, ?_, granted_run nonempty ready counter spot lowest⟩
      have positive : start ≠ 0 := by
        rintro rfl
        exact not_free.mpr first (spot.2 0 (Nat.le_refl 0) (by omega))
      exact Nat.mul_ne_zero positive (by decide)
    · exact absurd run no
  · rcases searchPages_cases nonempty with ⟨start, _, spot, _⟩ | ⟨_, is⟩
    · exact absurd ⟨start, spot⟩ no
    · exact is

def patchyState : State where
  bitmap byte := if byte = 0 then 5#8 else 0#8
  total := 8
  used := 2
  highestPage := 8
  ready := true

theorem pmmAllocPages_exact_patchy : bitmapTest patchyState 0 = true ∧
    ∃ start, (pmmAllocPages 2 patchyState).1 ≠ 0 ∧ Granted patchyState 2 start (pmmAllocPages 2 patchyState) := by
  refine ⟨rfl, (pmmAllocPages_exact (.inl rfl) (by decide) rfl (by decide)).2.1 ⟨3, by decide, fun page low high => ?_⟩⟩
  obtain rfl | rfl : page = 3 ∨ page = 4 := by omega
  · rfl
  · rfl

/-- An address range handed out and not taken back. -/
structure Allocation where
  phys : Nat
  count : Nat
deriving DecidableEq, Repr

def Allocation.Holds (allocation : Allocation) (page : Nat) : Prop :=
  allocation.phys / pageSize ≤ page ∧ page < allocation.phys / pageSize + allocation.count

inductive Call where
  | allocPage
  | allocPages (count : Nat)
  | freePage (phys : Nat)
  | freePages (phys count : Nat)

structure Client where
  pmm : State
  outstanding : List Allocation

/-- A non-zero result is an allocation; 0 is a refusal. -/
def Client.grant (client : Client) (count : Nat) (result : Nat × State) : Client :=
  if result.1 = 0 then { client with pmm := result.2 }
  else { pmm := result.2, outstanding := ⟨result.1, count⟩ :: client.outstanding }

variable {client : Client}

theorem Client.grant_some {result : Nat × State} (nonzero : result.1 ≠ 0) :
    client.grant count result = ⟨result.2, ⟨result.1, count⟩ :: client.outstanding⟩ := by
  simp only [Client.grant, nonzero, if_false]

/-- Callers release only what they hold. -/
inductive Step : Client → Call → Client → Prop where
  | allocPage (client : Client) : Step client .allocPage (client.grant 1 (pmmAllocPage client.pmm))
  | allocPages (client : Client) (count : Nat) :
      Step client (.allocPages count) (client.grant count (pmmAllocPages count client.pmm))
  | freePage (client : Client) (phys : Nat) (held : ⟨phys, 1⟩ ∈ client.outstanding) :
      Step client (.freePage phys) ⟨pmmFreePage client.pmm phys, client.outstanding.erase ⟨phys, 1⟩⟩
  | freePages (client : Client) (phys count : Nat) (held : ⟨phys, count⟩ ∈ client.outstanding) :
      Step client (.freePages phys count) ⟨pmmFreePages client.pmm phys count, client.outstanding.erase ⟨phys, count⟩⟩

/-- The page ranges of two allocations do not meet. -/
def Allocation.Apart (first second : Allocation) : Prop := ∀ page, ¬(first.Holds page ∧ second.Holds page)

/-- `pool` is the set of pages that were free when the run began. -/
structure Client.Sound (pool : Nat → Prop) (client : Client) : Prop where
  ready : client.pmm.ready = true
  pool_lt : ∀ page, pool page → page < client.pmm.highestPage
  free : ∀ page, Free client.pmm page → pool page
  aligned : ∀ held ∈ client.outstanding, held.phys = held.phys / pageSize * pageSize
  nonempty : ∀ held ∈ client.outstanding, 0 < held.count
  used : ∀ held ∈ client.outstanding, ∀ page, held.Holds page → pool page ∧ page < pmmMaxPages ∧ ¬Free client.pmm page
  apart : client.outstanding.Pairwise Allocation.Apart

private theorem Client.Sound.grant {pool : Nat → Prop} (sound : client.Sound pool)
    {result : Nat × State} (outcome : (∃ start, result.1 = start * pageSize ∧ Takes client.pmm result.2 start count) ∨
      result = (0, client.pmm)) (lowest : ¬pool 0) : (client.grant count result).Sound pool := by
  unfold Client.grant
  rcases outcome with ⟨start, address, takes⟩ | refused
  · have first : start ≠ 0 := by
      rintro rfl
      exact lowest (sound.free 0 (takes.free 0 (by omega) (by have := takes.nonempty; omega)))
    have page : result.1 / pageSize = start := by
      rw [address]
      exact Nat.mul_div_cancel start (by decide)
    have nonzero : result.1 ≠ 0 := by
      rw [address]
      exact Nat.mul_ne_zero first (by decide)
    simp only [nonzero, if_false]
    refine ⟨takes.ready.trans sound.ready, ?_, ?_, ?_, ?_, ?_, ?_⟩
    · intro page inside
      exact takes.highest ▸ sound.pool_lt page inside
    · intro page free
      exact sound.free page ((takes.taken page).mp free).1
    · intro held member
      rcases mem_cons.mp member with rfl | old
      · simp only [page]
        exact address
      · exact sound.aligned held old
    · intro held member
      rcases mem_cons.mp member with rfl | old
      · exact takes.nonempty
      · exact sound.nonempty held old
    · intro held member other holds
      rcases mem_cons.mp member with rfl | old
      · simp only [Allocation.Holds, page] at holds
        have free := takes.free other holds.1 holds.2
        exact ⟨sound.free other free, free.lt, fun stays => ((takes.taken other).mp stays).2 holds⟩
      · obtain ⟨inside, bound, unfree⟩ := sound.used held old other holds
        exact ⟨inside, bound, fun stays => unfree ((takes.taken other).mp stays).1⟩
    · refine pairwise_cons.mpr ⟨?_, sound.apart⟩
      intro held old other both
      simp only [Allocation.Holds, page] at both
      exact (sound.used held old other both.2).2.2 (takes.free other both.1.1 both.1.2)
  · simp only [refused, if_true]
    exact sound

private theorem Client.Sound.release {pool : Nat → Prop} (sound : client.Sound pool) {held : Allocation}
    (member : held ∈ client.outstanding) :
    Client.Sound pool ⟨pmmFreePages client.pmm held.phys held.count, client.outstanding.erase held⟩ := by
  have range : held.phys / pageSize + held.count ≤ client.pmm.highestPage ∧
      held.phys / pageSize + held.count ≤ pmmMaxPages := by
    have positive := sound.nonempty held member
    have holds := sound.used held member
    simp only [Allocation.Holds] at holds
    generalize held.phys / pageSize = start at holds ⊢
    have last := holds (start + held.count - 1) ⟨by omega, by omega⟩
    have below := sound.pool_lt _ last.1
    omega
  have freed : ∀ page, Free (pmmFreePages client.pmm held.phys held.count) page ↔
      Free client.pmm page ∨ held.Holds page := by
    intro page
    rw [sound.aligned held member]
    exact (pmmFreePages_spec sound.ready range.1 range.2
      fun other low high => (sound.used held member other ⟨low, high⟩).2.2).2 page
  have others : ∀ other ∈ client.outstanding.erase held, other.Apart held := by
    intro other kept page both
    have split := perm_cons_erase member
    have pairs := (List.Perm.pairwise_iff (fun {first second} apart => by
      intro page both
      exact apart page both.symm) split).mp sound.apart
    exact (pairwise_cons.mp pairs).1 other kept page both.symm
  refine ⟨(pmmFreePages_keeps _ _ _).2.trans sound.ready, ?_, ?_, ?_, ?_, ?_, ?_⟩
  · intro page inside
    simpa using sound.pool_lt page inside
  · intro page free
    rcases (freed page).mp free with before | inside
    · exact sound.free page before
    · exact (sound.used held member page inside).1
  · exact fun other kept => sound.aligned other (mem_of_mem_erase kept)
  · exact fun other kept => sound.nonempty other (mem_of_mem_erase kept)
  · intro other kept page holds
    obtain ⟨inside, bound, unfree⟩ := sound.used other (mem_of_mem_erase kept) page holds
    refine ⟨inside, bound, fun stays => ?_⟩
    rcases (freed page).mp stays with before | released
    · exact unfree before
    · exact others other kept page ⟨holds, released⟩
  · exact sound.apart.sublist erase_sublist

private theorem pmmFreePages_one (state : State) (page : Nat) (bound : page < pmmMaxPages) :
    pmmFreePages state (page * pageSize) 1 = pmmFreePage state (page * pageSize) := by
  have small : pmmMaxPages * pageSize < 2 ^ 64 := by decide
  have scaled := Nat.mul_le_mul_right pageSize (Nat.le_of_lt bound)
  have address : u64 (page * pageSize + 0 * pageSize) = page * pageSize := by
    rw [Nat.zero_mul, Nat.add_zero]
    exact Nat.mod_eq_of_lt (by omega)
  unfold pmmFreePages
  rw [show (1 : Nat) = 0 + 1 from rfl, forRange_last _ _ (Nat.le_refl 0), forRange_empty _ _ (Nat.le_refl 0), address]

theorem Client.Sound.step {pool : Nat → Prop} (lowest : ¬pool 0) {before after : Client} {call : Call}
    (sound : before.Sound pool) (moves : Step before call after) : after.Sound pool := by
  cases moves with
  | allocPage => exact sound.grant (pmmAllocPage_spec before.pmm) lowest
  | allocPages count => exact sound.grant (pmmAllocPages_spec count before.pmm) lowest
  | freePage phys held =>
    have released := sound.release held
    have bound := (sound.used _ held (phys / pageSize) ⟨Nat.le_refl _, by simp⟩).2.1
    have aligned := sound.aligned _ held
    simp only at released aligned
    rw [aligned, pmmFreePages_one _ _ bound, ← aligned] at released
    exact released
  | freePages phys count held => exact sound.release held

end GWKernel.Pmm
