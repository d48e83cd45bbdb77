import Mathlib

/-! State-passing code that may fail to return: `none` stands for a computation that has used up
its fuel. `Ends` is the one judgement about such code; its rules take a `do` block apart. -/

namespace GWKernel.Lib

variable {σ α β : Type} {enough : Prop} {state : σ}

/-- Whatever the code returns satisfies `post`, and with enough fuel it returns. -/
def Ends (enough : Prop) (code : StateT σ Option α) (state : σ) (post : α → σ → Prop) : Prop :=
  (enough → (code state).isSome) ∧ ∀ value final, code state = some (value, final) → post value final

variable {post : α → σ → Prop} {code : StateT σ Option α}

theorem Ends.pure {value : α} (holds : post value state) : Ends enough (Pure.pure value) state post :=
  ⟨fun _ => rfl, fun _ _ ran => by cases ran; exact holds⟩

theorem Ends.bind {first : StateT σ Option α} {rest : α → StateT σ Option β} {middle : α → σ → Prop}
    {post : β → σ → Prop} (start : Ends enough first state middle)
    (next : ∀ value between, middle value between → Ends enough (rest value) between post) :
    Ends enough (first >>= rest) state post := by
  have unfolded : (first >>= rest) state = (first state).bind fun outcome => rest outcome.1 outcome.2 := rfl
  constructor
  · intro fuel
    obtain ⟨⟨value, between⟩, ran⟩ := Option.isSome_iff_exists.mp (start.1 fuel)
    rw [unfolded, ran]
    exact (next value between (start.2 value between ran)).1 fuel
  · intro value final ran
    rw [unfolded, Option.bind_eq_some_iff] at ran
    obtain ⟨⟨found, between⟩, began, ended⟩ := ran
    exact (next found between (start.2 found between began)).2 value final ended

theorem Ends.mono {weaker : Prop} {wider : α → σ → Prop} (ends : Ends enough code state post)
    (more : weaker → enough) (widen : ∀ value final, post value final → wider value final) :
    Ends weaker code state wider :=
  ⟨fun fuel => ends.1 (more fuel), fun value final ran => widen value final (ends.2 value final ran)⟩

theorem Ends.imp {wider : α → σ → Prop} (ends : Ends enough code state post)
    (widen : ∀ value final, post value final → wider value final) : Ends enough code state wider :=
  ends.mono id widen

theorem Ends.and {more : α → σ → Prop} (ends : Ends enough code state post)
    (also : ∀ value final, code state = some (value, final) → more value final) :
    Ends enough code state fun value final => post value final ∧ more value final :=
  ⟨ends.1, fun value final ran => ⟨ends.2 value final ran, also value final ran⟩⟩

theorem Ends.get_then {rest : σ → StateT σ Option β} {post : β → σ → Prop}
    (next : Ends enough (rest state) state post) : Ends enough (MonadState.get >>= rest) state post :=
  next

theorem Ends.modify_then {change : σ → σ} {rest : PUnit → StateT σ Option β} {post : β → σ → Prop}
    (next : Ends enough (rest ⟨⟩) (change state) post) : Ends enough (modify change >>= rest) state post :=
  next

theorem Ends.modify {change : σ → σ} {post : PUnit → σ → Prop} (holds : post ⟨⟩ (change state)) :
    Ends enough (modify change) state post :=
  ⟨fun _ => rfl, fun _ _ ran => by cases ran; exact holds⟩

theorem Ends.branch {condition : Prop} [Decidable condition] {yes no : StateT σ Option α}
    (whenTrue : condition → Ends enough yes state post) (whenFalse : ¬condition → Ends enough no state post) :
    Ends enough (if condition then yes else no) state post := by
  split
  next holds => exact whenTrue holds
  next fails => exact whenFalse fails

theorem Ends.exhausted (short : ¬enough) : Ends enough (fun _ => none) state post :=
  ⟨fun fuel => absurd fuel short, fun _ _ ran => by cases ran⟩

theorem Ends.returns (ends : Ends enough code state post) (fuel : enough) :
    ∃ value final, code state = some (value, final) ∧ post value final := by
  obtain ⟨⟨value, final⟩, ran⟩ := Option.isSome_iff_exists.mp (ends.1 fuel)
  exact ⟨value, final, ran, ends.2 value final ran⟩

theorem Ends.result {expected : α} (ends : Ends enough code state fun value _ => value = expected) (fuel : enough) :
    (code state).map Prod.fst = some expected := by
  obtain ⟨value, final, ran, rfl⟩ := ends.returns fuel
  rw [ran]
  rfl

theorem bind_of_run {first : StateT σ Option α} {rest : α → StateT σ Option β} {value : α} {between : σ}
    (ran : first state = some (value, between)) : (first >>= rest) state = rest value between := by
  change (first state).bind (fun outcome => rest outcome.1 outcome.2) = _
  rw [ran, Option.bind_some]

/-- With enough fuel the code always returns the same, and that satisfies `post`. -/
def Returns (code : Nat → StateT σ Option α) (state : σ) (post : α → σ → Prop) : Prop :=
  ∃ value final, post value final ∧ ∃ bound, ∀ fuel, bound ≤ fuel → code fuel state = some (value, final)

section Returns

variable {post : α → σ → Prop}

theorem Ends.always {code : StateT σ Option α} (ends : Ends True code state post) :
    Returns (fun _ => code) state post := by
  obtain ⟨value, final, ran, holds⟩ := ends.returns trivial
  exact ⟨value, final, holds, 0, fun _ _ => ran⟩

theorem Returns.pure {value : α} (holds : post value state) : Returns (fun _ => Pure.pure value) state post :=
  Ends.always (Ends.pure holds)

theorem Returns.bind {first : Nat → StateT σ Option α} {rest : Nat → α → StateT σ Option β} {middle : α → σ → Prop}
    {post : β → σ → Prop} (start : Returns first state middle)
    (next : ∀ value between, middle value between → Returns (fun fuel => rest fuel value) between post) :
    Returns (fun fuel => first fuel >>= rest fuel) state post := by
  obtain ⟨value, between, reached, enough, ran⟩ := start
  obtain ⟨result, final, holds, more, ends⟩ := next value between reached
  refine ⟨result, final, holds, max enough more, fun fuel large => ?_⟩
  refine (bind_of_run (ran fuel (Nat.le_trans (Nat.le_max_left _ _) large))).trans ?_
  exact ends fuel (Nat.le_trans (Nat.le_max_right _ _) large)

theorem Returns.branch {condition : Prop} [Decidable condition] {yes no : Nat → StateT σ Option α}
    (whenTrue : condition → Returns yes state post) (whenFalse : ¬condition → Returns no state post) :
    Returns (fun fuel => if condition then yes fuel else no fuel) state post := by
  split
  next holds => exact whenTrue holds
  next fails => exact whenFalse fails

theorem Returns.step {code next : Nat → StateT σ Option α} {between : σ}
    (steps : ∀ fuel, code (fuel + 1) state = next fuel between) (returns : Returns next between post) :
    Returns code state post := by
  obtain ⟨value, final, holds, bound, ran⟩ := returns
  refine ⟨value, final, holds, bound + 1, fun fuel large => ?_⟩
  obtain ⟨fuel, rfl⟩ : ∃ less, fuel = less + 1 := ⟨fuel - 1, by omega⟩
  rw [steps]
  exact ran fuel (by omega)

variable {code : Nat → StateT σ Option α}

theorem Returns.again {body : Nat → StateT σ Option α} (unfolds : ∀ fuel, code (fuel + 1) = body fuel)
    (returns : Returns body state post) : Returns code state post :=
  returns.step fun fuel => by rw [unfolds]

theorem Returns.imp {wider : α → σ → Prop} (returns : Returns code state post)
    (widen : ∀ value final, post value final → wider value final) : Returns code state wider := by
  obtain ⟨value, final, holds, bound⟩ := returns
  exact ⟨value, final, widen value final holds, bound⟩

theorem Returns.and {more : α → σ → Prop} (returns : Returns code state post)
    (also : ∀ fuel, Ends False (code fuel) state more) :
    Returns code state fun value final => post value final ∧ more value final := by
  obtain ⟨value, final, holds, bound, ran⟩ := returns
  exact ⟨value, final, ⟨holds, (also bound).2 value final (ran bound (Nat.le_refl _))⟩, bound, ran⟩

/-- With enough fuel the code returns the value. -/
abbrev Answers (code : Nat → StateT σ Option α) (state : σ) (value : α) : Prop :=
  Returns code state fun returned _ => returned = value

theorem answers_iff {rel : α → Prop} {value : α}
    (sound : ∀ fuel, Ends False (code fuel) state fun returned _ => rel returned)
    (complete : ∀ value, rel value → Answers code state value) : Answers code state value ↔ rel value := by
  refine ⟨fun answers => ?_, complete value⟩
  obtain ⟨_, _, ⟨rfl, holds⟩, _⟩ := answers.and sound
  exact holds

end Returns

def Stays (invariant : σ → Prop) (code : StateT σ Option α) : Prop :=
  ∀ state, invariant state → Ends True code state fun _ final => invariant final

section Stays

variable {invariant : σ → Prop}

theorem Stays.pure (value : α) : Stays invariant (Pure.pure value) := fun _ holds => Ends.pure holds

theorem Stays.bind {first : StateT σ Option α} {rest : α → StateT σ Option β} (start : Stays invariant first)
    (next : ∀ value, Stays invariant (rest value)) : Stays invariant (first >>= rest) :=
  fun state holds => (start state holds).bind fun value between kept => next value between kept

theorem Stays.get_then {rest : σ → StateT σ Option β} (next : ∀ seen, Stays invariant (rest seen)) :
    Stays invariant (MonadState.get >>= rest) :=
  fun state holds => next state state holds

theorem Stays.modify {change : σ → σ} (kept : ∀ state, invariant state → invariant (change state)) :
    Stays invariant (modify change) :=
  fun state holds => Ends.modify (kept state holds)

theorem Stays.branch {condition : Prop} [Decidable condition] {yes no : StateT σ Option α}
    (whenTrue : condition → Stays invariant yes) (whenFalse : ¬condition → Stays invariant no) :
    Stays invariant (if condition then yes else no) :=
  fun state holds => Ends.branch (fun is => whenTrue is state holds) fun isNot => whenFalse isNot state holds

end Stays

variable {rel : σ → σ → Prop}

def Moves (rel : σ → σ → Prop) (code : StateT σ Option α) : Prop :=
  ∀ state value final, code state = some (value, final) → rel state final

theorem Moves.ends {code : StateT σ Option α} (moves : Moves rel code) (state : σ) :
    Ends False code state fun _ final => rel state final :=
  ⟨False.elim, fun value final ran => moves state value final ran⟩

theorem Moves.modify {change : σ → σ} (moves : ∀ state, rel state (change state)) : Moves rel (modify change) := by
  intro state value final ran
  cases ran
  exact moves state

theorem Moves.exhausted : Moves rel (fun _ => none : StateT σ Option α) := fun _ _ _ ran => by cases ran

theorem Moves.branch {condition : Prop} [Decidable condition] {yes no : StateT σ Option α}
    (whenTrue : Moves rel yes) (whenFalse : Moves rel no) : Moves rel (if condition then yes else no) := by
  split
  · exact whenTrue
  · exact whenFalse

section Preorder

variable [IsPreorder σ rel]

theorem Moves.pure (value : α) : Moves rel (Pure.pure value : StateT σ Option α) := by
  intro state _ final ran
  cases ran
  exact refl state

theorem Moves.get : Moves rel (MonadState.get : StateT σ Option σ) := by
  intro state _ final ran
  cases ran
  exact refl state

theorem Moves.bind {first : StateT σ Option α} {rest : α → StateT σ Option β} (start : Moves rel first)
    (next : ∀ value, Moves rel (rest value)) : Moves rel (first >>= rest) := by
  intro state value final ran
  obtain ⟨⟨found, middle⟩, began, ended⟩ := Option.bind_eq_some_iff.mp ran
  exact IsTrans.trans _ _ _ (start state found middle began) (next found middle value final ended)

end Preorder

section Preserves

variable {holds : σ → Prop}

/-- Code that always returns, and keeps a property of the state. -/
def Preserves (holds : σ → Prop) (code : StateM σ α) : Prop := ∀ state, holds state → holds (code state).2

theorem Preserves.pure (value : α) : Preserves holds (Pure.pure value : StateM σ α) := fun _ kept => kept

theorem Preserves.bind {first : StateM σ α} {rest : α → StateM σ β} (start : Preserves holds first)
    (next : ∀ value, Preserves holds (rest value)) : Preserves holds (first >>= rest) :=
  fun state kept => next (first state).1 (first state).2 (start state kept)

theorem Preserves.branch {condition : Prop} [Decidable condition] {yes no : StateM σ α} (whenTrue : Preserves holds yes)
    (whenFalse : Preserves holds no) : Preserves holds (if condition then yes else no) := by
  split
  · exact whenTrue
  · exact whenFalse

end Preserves

section Simulates

variable {τ : Type} {related : σ → τ → Prop}

/-- From related states the two return the same, in related states. -/
def Simulates (related : σ → τ → Prop) (code : StateM σ α) (spec : StateT τ Option α) : Prop :=
  ∀ state other, related state other → Ends True spec other fun value final =>
    value = (code state).1 ∧ related (code state).2 final

theorem Simulates.pure (value : α) : Simulates related (Pure.pure value) (Pure.pure value) :=
  fun _ _ holds => .pure ⟨rfl, holds⟩

theorem Simulates.bind {first : StateM σ α} {rest : α → StateM σ β} {firstSpec : StateT τ Option α}
    {restSpec : α → StateT τ Option β} (start : Simulates related first firstSpec)
    (next : ∀ value, Simulates related (rest value) (restSpec value)) :
    Simulates related (first >>= rest) (firstSpec >>= restSpec) := by
  intro state other holds
  refine .bind (start state other holds) fun value between ⟨same, reached⟩ => ?_
  subst same
  exact next _ _ between reached

theorem Simulates.branch {condition : Prop} [Decidable condition] {yes no : StateM σ α} {yesSpec noSpec : StateT τ Option α}
    (whenTrue : Simulates related yes yesSpec) (whenFalse : Simulates related no noSpec) :
    Simulates related (if condition then yes else no) (if condition then yesSpec else noSpec) := by
  split
  · exact whenTrue
  · exact whenFalse

end Simulates

end GWKernel.Lib
