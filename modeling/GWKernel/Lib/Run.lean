import Mathlib

/-! Finite runs of a labelled step relation, and the counted loops that the steps
are made of. Nothing here knows what the states are. -/

namespace GWKernel.Lib

variable {σ ε : Type}

/-- A finite sequence of events, each of which moves the state. -/
inductive Run (step : σ → ε → σ → Prop) : σ → List ε → σ → Prop where
  | done (state : σ) : Run step state [] state
  | next {state middle final : σ} {event : ε} {events : List ε}
      (moves : step state event middle) (rest : Run step middle events final) :
      Run step state (event :: events) final

variable {step : σ → ε → σ → Prop}

theorem Run.preserves {invariant : σ → Prop}
    (kept : ∀ before event after, invariant before → step before event after → invariant after)
    {first last : σ} {events : List ε} (run : Run step first events last) (initial : invariant first) :
    invariant last := by
  induction run with
  | done _ => exact initial
  | next moves _ ih => exact ih (kept _ _ _ initial moves)

theorem Run.mono {other : σ → ε → σ → Prop} (weaker : ∀ before event after, step before event after →
    other before event after) {first last : σ} {events : List ε} (run : Run step first events last) :
    Run other first events last := by
  induction run with
  | done state => exact .done state
  | next moves _ ih => exact .next (weaker _ _ _ moves) ih

theorem Run.and_events {first last : σ} {events : List ε} {allowed : ε → Prop} (run : Run step first events last)
    (all : ∀ event ∈ events, allowed event) :
    Run (fun before event after => step before event after ∧ allowed event) first events last := by
  induction run with
  | done state => exact .done state
  | next moves _ ih =>
    obtain ⟨here, all⟩ := List.forall_mem_cons.mp all
    exact .next ⟨moves, here⟩ (ih all)

theorem Run.of_foldlM {next : σ → ε → Option σ} {events : List ε} {first last : σ}
    (ran : events.foldlM next first = some last) :
    Run (fun state event after => next state event = some after) first events last := by
  induction events generalizing first with
  | nil =>
    cases ran
    exact .done _
  | cons event rest ih =>
    obtain ⟨middle, moved, ran⟩ := Option.bind_eq_some_iff.mp ran
    exact .next moved (ih ran)

/-- `for (i = lo; i < hi; i++) body`. -/
def forRange (lo hi : Nat) (body : Nat → σ → σ) (state : σ) : σ :=
  (List.range' lo (hi - lo)).foldl (fun current index => body index current) state

theorem forRange_empty {lo hi : Nat} (body : Nat → σ → σ) (state : σ) (empty : hi ≤ lo) :
    forRange lo hi body state = state := by
  simp [forRange, Nat.sub_eq_zero_of_le empty]

theorem forRange_last {lo hi : Nat} (body : Nat → σ → σ) (state : σ) (inside : lo ≤ hi) :
    forRange lo (hi + 1) body state = body hi (forRange lo hi body state) := by
  have size : hi + 1 - lo = (hi - lo) + 1 := by omega
  have index : lo + (hi - lo) = hi := by omega
  simp [forRange, size, List.range'_concat, List.foldl_append, index]

/-- The loop rule: `motive i` describes the state in which iteration `i` begins. -/
theorem forRange_rule {lo hi : Nat} (body : Nat → σ → σ) (state : σ) (motive : Nat → σ → Prop)
    (inside : lo ≤ hi) (initial : motive lo state)
    (kept : ∀ index current, lo ≤ index → index < hi → motive index current →
      motive (index + 1) (body index current)) :
    motive hi (forRange lo hi body state) := by
  induction hi with
  | zero =>
    obtain rfl : lo = 0 := by omega
    simpa [forRange] using initial
  | succ hi ih =>
    by_cases fresh : lo = hi + 1
    · subst fresh
      simpa [forRange] using initial
    · have before : lo ≤ hi := by omega
      rw [forRange_last body state before]
      apply kept hi _ before (by omega)
      exact ih before (fun index current above below holds => kept index current above (by omega) holds)

theorem forRange_keeps {α : Type} (view : σ → α) (body : Nat → σ → σ)
    (kept : ∀ index current, view (body index current) = view current) (lo hi : Nat) (state : σ) :
    view (forRange lo hi body state) = view state := by
  unfold forRange
  generalize List.range' lo (hi - lo) = indices
  induction indices generalizing state with
  | nil => rfl
  | cons index indices ih => exact (ih _).trans (kept index state)

end GWKernel.Lib
