import GWKernel.Lib.Run

/-! Programs that work on a shared state in atomic steps. Between two steps others may change it,
within the limits of `rely`; the history records what they have done. `Holds` is the one judgement
about such programs. -/

namespace GWKernel.Lib

variable {σ γ ε α β : Type}

/-- What a program still has to do. The rest of it may depend on the state in which its
next step is taken. -/
inductive Prog (σ α : Type) where
  | ret (value : α)
  | step (act : σ → σ) (next : σ → Prog σ α)

namespace Prog

def bind : Prog σ α → (α → Prog σ β) → Prog σ β
  | ret value, rest => rest value
  | step act next, rest => step act fun seen => (next seen).bind rest

instance : Monad (Prog σ) where
  pure := ret
  bind := bind

/-- One atomic step that yields a value. -/
def atomic (act : σ → α × σ) : Prog σ α := step (fun state => (act state).2) fun seen => ret (act seen).1

/-- The program on its own, with nobody else at the state. -/
def run : Prog σ α → σ → α × σ
  | ret value, state => (value, state)
  | step act next, state => (next state).run (act state)

@[simp] theorem run_pure (value : α) (state : σ) : (pure value : Prog σ α).run state = (value, state) := rfl

@[simp] theorem run_bind (first : Prog σ α) (rest : α → Prog σ β) (state : σ) :
    (first >>= rest).run state = (rest (first.run state).1).run (first.run state).2 := by
  induction first generalizing state with
  | ret value => rfl
  | step act next ih => exact ih state (act state)

end Prog

open Prog

section Holds

variable {safe : σ → γ → Prop} {rely : σ → γ → σ → γ → Prop} {state : σ} {history : γ}

/-- Whatever the others do, the program takes its steps in safe states and returns only
what `post` allows. -/
def Holds (safe : σ → γ → Prop) (rely : σ → γ → σ → γ → Prop) (post : α → σ → γ → Prop) : Prog σ α → σ → γ → Prop
  | ret value, state, history => post value state history
  | step act next, state, history => ∀ seen known, rely state history seen known →
      safe seen known ∧ Holds safe rely post (next seen) (act seen) known

theorem Holds.bind {first : Prog σ α} {rest : α → Prog σ β} {middle : α → σ → γ → Prop} {post : β → σ → γ → Prop}
    (start : Holds safe rely middle first state history)
    (next : ∀ value between known, middle value between known → Holds safe rely post (rest value) between known) :
    Holds safe rely post (first >>= rest) state history := by
  induction first generalizing state history with
  | ret value => exact next value state history start
  | step act following ih =>
    intro seen known moved
    obtain ⟨fine, start⟩ := start seen known moved
    exact ⟨fine, ih seen start⟩

variable {post : α → σ → γ → Prop}

theorem Holds.pure {value : α} (holds : post value state history) :
    Holds safe rely post (Pure.pure value) state history := holds

theorem Holds.atomic {act : σ → α × σ}
    (holds : ∀ seen known, rely state history seen known →
      safe seen known ∧ post (act seen).1 (act seen).2 known) :
    Holds safe rely post (Prog.atomic act) state history := holds

theorem Holds.branch {condition : Prop} [Decidable condition] {yes no : Prog σ α}
    (whenTrue : condition → Holds safe rely post yes state history)
    (whenFalse : ¬condition → Holds safe rely post no state history) :
    Holds safe rely post (if condition then yes else no) state history := by
  split
  next holds => exact whenTrue holds
  next fails => exact whenFalse fails

end Holds

structure Return (γ α : Type) where
  begun : γ
  value : α
  ended : γ

inductive Caller (σ γ α : Type) where
  | idle
  | busy (begun : γ) (act : σ → σ) (next : σ → Prog σ α)

structure Session (σ γ α : Type) where
  state : σ
  history : γ
  caller : Caller σ γ α
  returned : List (Return γ α)

namespace Session

def resume (session : Session σ γ α) (begun : γ) (state : σ) : Prog σ α → Session σ γ α
  | ret value =>
    { session with state, caller := .idle, returned := session.returned ++ [⟨begun, value, session.history⟩] }
  | step act next => { session with state, caller := .busy begun act next }

inductive Event (ε : Type) where
  | others (event : ε)
  | call
  | tick

/-- The session after a call that nobody has interfered with. -/
def afterCall (session : Session σ γ α) (begun : γ) (result : α × σ) : Session σ γ α :=
  { session with
    state := result.2, caller := .idle, returned := session.returned ++ [⟨begun, result.1, session.history⟩] }

/-- The others and the caller take turns in any order. -/
inductive Step (others : σ → γ → ε → σ → γ → Prop) (offered : Prog σ α → Prop) :
    Session σ γ α → Event ε → Session σ γ α → Prop where
  | others {session : Session σ γ α} {event : ε} {state : σ} {history : γ}
      (moves : others session.state session.history event state history) :
      Step others offered session (.others event) { session with state, history }
  | call {session : Session σ γ α} {program : Prog σ α} (idle : session.caller = .idle) (may : offered program) :
      Step others offered session .call (session.resume session.history session.state program)
  | tick {session : Session σ γ α} {begun : γ} {act : σ → σ} {next : σ → Prog σ α}
      (busy : session.caller = .busy begun act next) :
      Step others offered session .tick (session.resume begun (act session.state) (next session.state))

variable {safe rest : List (Return γ α) → σ → γ → Prop} {rely : σ → γ → σ → γ → Prop}
  {others : σ → γ → ε → σ → γ → Prop} {offered : Prog σ α → Prop}

/-- What has to be shown: every call leads from `rest` to `rest`, whatever the others do. -/
structure Rules (safe rest : List (Return γ α) → σ → γ → Prop) (rely : σ → γ → σ → γ → Prop)
    (others : σ → γ → ε → σ → γ → Prop) (offered : Prog σ α → Prop) : Prop where
  reflexive : ∀ state history, rely state history state history
  transitive : ∀ {first past second known third last}, rely first past second known → rely second known third last →
    rely first past third last
  within : ∀ {state history event after known}, others state history event after known → rely state history after known
  stable : ∀ {returned state history event after known}, rest returned state history →
    others state history event after known → rest returned after known
  guarded : ∀ {returned state history}, rest returned state history → safe returned state history
  program : ∀ {returned program state history}, offered program → rest returned state history →
    Holds (safe returned) rely (fun value after known => rest (returned ++ [⟨history, value, known⟩]) after known)
      program state history

def Sound (safe rest : List (Return γ α) → σ → γ → Prop) (rely : σ → γ → σ → γ → Prop) (session : Session σ γ α) : Prop :=
  match session.caller with
  | .idle => rest session.returned session.state session.history
  | .busy begun act next =>
    Holds (safe session.returned) rely
      (fun value after known => rest (session.returned ++ [⟨begun, value, known⟩]) after known)
      (step act next) session.state session.history

theorem Sound.resume {session : Session σ γ α} {begun : γ} {state : σ} {program : Prog σ α}
    (holds : Holds (safe session.returned) rely
      (fun value after known => rest (session.returned ++ [⟨begun, value, known⟩]) after known)
      program state session.history) : Sound safe rest rely (session.resume begun state program) := by
  cases program with
  | ret value => exact holds
  | step act next => exact holds

theorem Sound.step (rules : Rules safe rest rely others offered) {before after : Session σ γ α} {event : Event ε}
    (sound : Sound safe rest rely before) (moves : Step others offered before event after) :
    Sound safe rest rely after := by
  cases moves with
  | others moved =>
    cases caller : before.caller with
    | idle =>
      simp only [Sound, caller] at sound ⊢
      exact rules.stable sound moved
    | busy begun act next =>
      simp only [Sound, caller] at sound ⊢
      intro seen known later
      exact sound seen known (rules.transitive (rules.within moved) later)
  | call idle may =>
    simp only [Sound, idle] at sound
    exact Sound.resume (rules.program may sound)
  | tick busy =>
    simp only [Sound, busy] at sound
    exact Sound.resume (sound _ _ (rules.reflexive _ _)).2

theorem Sound.guarded (rules : Rules safe rest rely others offered) {session : Session σ γ α}
    (sound : Sound safe rest rely session) : safe session.returned session.state session.history := by
  cases caller : session.caller with
  | idle =>
    simp only [Sound, caller] at sound
    exact rules.guarded sound
  | busy begun act next =>
    simp only [Sound, caller] at sound
    exact (sound _ _ (rules.reflexive _ _)).1

theorem resume_resume (session : Session σ γ α) (first begun : γ) (before state : σ) (act : σ → σ)
    (next : σ → Prog σ α) (program : Prog σ α) :
    (session.resume first before (step act next)).resume begun state program = session.resume begun state program := by
  cases program <;> rfl

theorem runs_alone (session : Session σ γ α) (begun : γ) (state : σ) (program : Prog σ α) :
    ∃ ticks, Run (Step others offered) (session.resume begun state program) (List.replicate ticks .tick)
      (session.afterCall begun (program.run state)) := by
  induction program generalizing state with
  | ret value => exact ⟨0, .done _⟩
  | step act next ih =>
    obtain ⟨ticks, rest⟩ := ih state (act state)
    refine ⟨ticks + 1, .next (.tick rfl) ?_⟩
    rw [resume_resume]
    exact rest

theorem calls_alone {session : Session σ γ α} {program : Prog σ α} (idle : session.caller = .idle) (may : offered program) :
    ∃ ticks, Run (Step others offered) session (.call :: List.replicate ticks .tick)
      (session.afterCall session.history (program.run session.state)) := by
  obtain ⟨ticks, run⟩ := runs_alone session session.history session.state program
  exact ⟨ticks, .next (.call idle may) run⟩

end Session

end GWKernel.Lib
