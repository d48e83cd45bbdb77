import GWKernel.Proofs.ContextSwitch

/-! When `thread_create` finds a slot. Every thread keeps its slot, so the pool is used up after
sixteen threads even when they have exited. -/

namespace GWKernel.Sched
open Lib List
open UserMode (Machine)

variable {layout : Layout} {fuel : Nat} {sys after : System} {queue : List Ref} {t : Ref} {index : Fin maxThreads}

def usedSlots (sys : System) : Finset (Fin maxThreads) :=
  Finset.univ.filter fun index => (sys.threads (.slot index)).state ≠ .unused

def liveSlots (sys : System) : Finset (Fin maxThreads) :=
  Finset.univ.filter fun index => (sys.threads (.slot index)).state ∈ [.ready, .running, .blocked]

structure Numbered (sys : System) : Prop where
  next : sys.nextId.toInt = (usedSlots sys).card + 1
  below : ∀ index ∈ usedSlots sys,
    0 < (sys.threads (.slot index)).id.toInt ∧ (sys.threads (.slot index)).id.toInt < sys.nextId.toInt

structure SameSlots (sys after : System) : Prop where
  next : after.nextId = sys.nextId
  id : ∀ t, (after.threads t).id = (sys.threads t).id
  unused : ∀ t, (after.threads t).state = .unused ↔ (sys.threads t).state = .unused

theorem SameSlots.refl (sys : System) : SameSlots sys sys := ⟨rfl, fun _ => rfl, fun _ => Iff.rfl⟩

theorem SameSlots.numbered (same : SameSlots sys after) (numbered : Numbered sys) : Numbered after := by
  have used : usedSlots after = usedSlots sys := Finset.filter_congr fun index _ => not_congr (same.unused _)
  refine ⟨by rw [same.next, used, numbered.next], fun index member => ?_⟩
  rw [same.id, same.next]
  exact numbered.below index (used ▸ member)

theorem Handed.sameSlots (handed : Handed sys after t) (isReady : (sys.threads t).state = .ready) :
    SameSlots sys after := by
  refine ⟨handed.id, fun u => ?_, fun u => ?_⟩
  · have bare := congrArg Thread.id (handed.bare u)
    exact bare
  · rw [handed.state]
    split
    next here => rw [here, isReady]; decide
    next =>
      split
      next back => rw [(mem_returning.mp back).2.2]; decide
      next => rfl

theorem schedOnTimer_sameSlots {back dummy : UInt64} (sound : Sound sys queue) (enough : maxThreads ≤ fuel)
    (ran : schedOnTimer layout fuel back dummy sys = some after) : SameSlots sys after := by
  by_cases nothing : sys.schedStarted = false ∨ queue = []
  · rw [schedOnTimer_stays sound nothing] at ran
    exact Option.some.inj ran ▸ .refl sys
  · push Not at nothing
    obtain ⟨t, rest, rfl⟩ := exists_cons_of_ne_nil nothing.2
    obtain ⟨middle, is, handed, _⟩ := schedOnTimer_hands layout back dummy sound (by simpa using nothing.1) enough
    rw [is] at ran
    obtain rfl := Option.some.inj ran
    have same := handed.sameSlots ((sound.ready t).mpr mem_cons_self)
    exact ⟨same.next, same.id, same.unused⟩

theorem schedStart_sameSlots {back discard : UInt64} (sound : Sound sys queue) (waiting : sys.schedStarted = false) :
    SameSlots sys (schedStart layout back discard sys) := by
  rcases schedStart_cases layout back discard sound waiting with ⟨_, is⟩ | ⟨t, rest, middle, rfl, is, handed, _⟩
  · rw [is]
    exact ⟨rfl, fun _ => rfl, fun _ => Iff.rfl⟩
  · have same := handed.sameSlots ((sound.ready t).mpr mem_cons_self)
    rw [is]
    exact ⟨same.next, same.id, same.unused⟩

theorem kill_sameSlots (sound : Sound sys queue) (is : sys.current = some t) :
    SameSlots sys (sys.modify t fun thread => { thread with state := .dead }) := by
  refine ⟨rfl, fun u => ?_, fun u => ?_⟩ <;> by_cases here : u = t
  · rw [here, modify_same]
  · rw [modify_other _ _ here]
  · rw [here, modify_same]
    rcases sound.turn t is with state | state <;> simp [state]
  · rw [modify_other _ _ here]

theorem pushAll_sp (values : List UInt64) (sp : UInt64) (sys : System) (room : 8 * values.length ≤ sp.toNat) :
    (pushAll values sp sys).1.toNat = sp.toNat - 8 * values.length := by
  induction values generalizing sp sys with
  | nil => rfl
  | cons value rest ih =>
    rw [length_cons] at room ⊢
    have down : (sp - 8).toNat = sp.toNat - 8 := UInt64.toNat_sub_of_le sp 8 (UInt64.le_iff_toNat_le.mpr (by simp; omega))
    exact (ih (sp - 8) _ (by omega)).trans (by omega)

theorem buildThread_fits {base : UInt64} (name : Option (List UInt8)) (entry arg : UInt64)
    (small : base.toNat + 8192 < 2 ^ 64) (t : Ref) (sys : System) :
    let built := buildThread layout name entry arg base t sys
    ¬(built.1 < base ∨ (built.2.threads t).stackTop ≤ built.1) ∧ (built.2.threads t).id = sys.nextId ∧
      built.2.nextId = sys.nextId + 1 := by
  have aligned := alignedTop small
  have top : (base + threadStackSize).toNat = base.toNat + 8192 := by
    rw [UInt64.toNat_add]
    exact Nat.mod_eq_of_lt small
  unfold buildThread
  dsimp only
  generalize filling : ({ sys with nextId := sys.nextId + 1 } : System).modify t _ = filled
  have sp := pushAll_sp (initialFrame layout entry arg) ((base + threadStackSize) &&& 0xFFFFFFFFFFFFFFF0) filled
    (by rw [aligned]; simp [initialFrame]; omega)
  obtain ⟨mem, pushed⟩ := pushAll_keeps (initialFrame layout entry arg)
    ((base + threadStackSize) &&& 0xFFFFFFFFFFFFFFF0) filled
  rw [aligned] at sp
  rw [pushed, modify_same]
  refine ⟨?_, ?_, ?_⟩
  · rw [UInt64.lt_iff_toNat_lt, UInt64.le_iff_toNat_le, sp, top]
    simp [initialFrame]
    omega
  · subst filling
    simp [System.modify, System.store]
  · subst filling
    rfl

variable {name : Option (List UInt8)} {entry arg base : UInt64}

theorem threadCreate_free (sound : Sound sys queue) (enough : maxThreads ≤ fuel) (small : base.toNat + 8192 < 2 ^ 64)
    (found : freeSlot sys = some (.slot index)) :
    ∃ after, threadCreate layout fuel name entry arg (some base) sys = some (sys.nextId, after) ∧
      Sound after (queue ++ [.slot index]) ∧ (after.threads (.slot index)).id = sys.nextId ∧
      (after.threads (.slot index)).state = .ready ∧ after.nextId = sys.nextId + 1 ∧
      ∀ other, other ≠ index → (after.threads (.slot other)).bare = (sys.threads (.slot other)).bare := by
  obtain ⟨_, is, free⟩ := freeSlot_some found
  obtain ⟨fits, id, next⟩ := @buildThread_fits layout base name entry arg small (.slot index) sys
  have build := @buildThread_built layout name entry arg base (.slot index) sys
  obtain ⟨after, added, queued, relinked⟩ := (build.queued sound free).add (sound.not_queued free)
    (Nat.le_trans sound.length enough)
  have named : (after.threads (.slot index)).id = sys.nextId := by
    have bare := congrArg Thread.id (relinked.bare (.slot index))
    exact bare.trans id
  refine ⟨after, ?_, build.queued_sound sound free Ref.noConfusion queued relinked, named,
    (relinked.state _).trans build.state, relinked.id.trans next, fun other differ => ?_⟩
  · unfold threadCreate
    rw [found]
    dsimp only
    rw [if_neg fits, added]
    exact congrArg (fun id => some (id, after)) named
  · rw [relinked.bare, build.others _ fun is => differ (Ref.slot.inj is)]

theorem freeSlot_none : freeSlot sys = none ↔ ∀ index, (sys.threads (.slot index)).state ≠ .unused := by
  simp [freeSlot]

theorem Numbered.create (numbered : Numbered sys) (free : (sys.threads (.slot index)).state = .unused)
    (id : (after.threads (.slot index)).id = sys.nextId) (ready : (after.threads (.slot index)).state = .ready)
    (next : after.nextId = sys.nextId + 1)
    (others : ∀ other, other ≠ index → (after.threads (.slot other)).bare = (sys.threads (.slot other)).bare) :
    Numbered after := by
  have state : ∀ other, other ≠ index → (after.threads (.slot other)).state = (sys.threads (.slot other)).state := by
    intro other differ
    have bare := congrArg Thread.state (others other differ)
    exact bare
  have used : usedSlots after = insert index (usedSlots sys) := by
    ext other
    by_cases here : other = index
    · simp [usedSlots, here, ready]
    · simp [usedSlots, here, state other here]
  have fresh : index ∉ usedSlots sys := by simp [usedSlots, free]
  have count : (usedSlots sys).card ≤ 16 := Finset.card_le_univ _
  have is := numbered.next
  have more : after.nextId.toInt = sys.nextId.toInt + 1 := by
    rw [next, Int32.toInt_add, show (1 : Int32).toInt = 1 from rfl, Int.bmod_def]
    omega
  refine ⟨by rw [more, used, Finset.card_insert_of_notMem fresh, is]; rfl, fun other member => ?_⟩
  by_cases here : other = index
  · rw [here, id]
    omega
  · have bare := congrArg Thread.id (others other here)
    have old := numbered.below other (Finset.mem_of_mem_insert_of_ne (used ▸ member) here)
    change (after.threads (.slot other)).id = (sys.threads (.slot other)).id at bare
    rw [bare]
    omega

/-- The stacks come from `kmalloc`: a block that is granted ends below the end of the address space. -/
def Event.Granted : Event → Prop
  | .create _ _ _ (some base) => base.toNat + 8192 < 2 ^ 64
  | _ => True

theorem Step.numbered {event : Event} (sound : Sound sys queue) (enough : maxThreads ≤ fuel) (granted : event.Granted)
    (step : Step layout fuel sys event after) (numbered : Numbered sys) : Numbered after := by
  unfold Step at step
  cases event with
  | work cpu =>
    obtain rfl := Option.some.inj step
    exact ⟨numbered.next, numbered.below⟩
  | create name entry arg stack =>
    obtain ⟨⟨_, _⟩, ran, rfl⟩ := Option.map_eq_some_iff.mp step
    cases found : freeSlot sys with
    | none =>
      unfold threadCreate at ran
      rw [found] at ran
      cases ran
      exact numbered
    | some t =>
      obtain ⟨index, rfl, free⟩ := freeSlot_some found
      cases stack with
      | none =>
        unfold threadCreate at ran
        rw [found] at ran
        cases ran
        exact numbered
      | some base =>
        obtain ⟨after, created, _, id, ready, next, others⟩ := threadCreate_free sound enough granted found
        cases created.symm.trans ran
        exact numbered.create free id ready next others
  | start back discard =>
    rw [Event.run] at step
    split at step
    next => cases step
    next waiting =>
      obtain rfl := Option.some.inj step
      exact (schedStart_sameSlots sound (Bool.eq_false_iff.mpr waiting)).numbered numbered
  | yield back dummy => exact (schedOnTimer_sameSlots sound enough step).numbered numbered
  | exit back dummy =>
    rw [Event.run, threadExit] at step
    split at step
    next => exact (schedOnTimer_sameSlots sound enough step).numbered numbered
    next t is =>
      have killed := (kill_sameSlots sound is).numbered numbered
      exact (schedOnTimer_sameSlots (sound.kill is) enough step).numbered killed

theorem Run.numbered {events : List Event}
    (run : Run (fun sys event after => Step layout fuel sys event after ∧ event.Granted) sys events after)
    (enough : maxThreads ≤ fuel) (sound : Sound sys queue) (numbered : Numbered sys) :
    (∃ now, Sound after now) ∧ Numbered after := by
  induction run generalizing queue with
  | done => exact ⟨⟨queue, sound⟩, numbered⟩
  | next moves _ ih =>
    obtain ⟨⟨now, middle⟩, _⟩ := Step.sound sound enough moves.1
    exact ih middle (Step.numbered sound enough moves.2 moves.1 numbered)

theorem schedInit_numbered {boot : System} (first : boot.nextId = 1) : Numbered (schedInit layout boot) := by
  have used : usedSlots (schedInit layout boot) = ∅ := by
    ext index
    simp [usedSlots, schedInit, threadInitIdle, System.modify, System.store]
  refine ⟨?_, by simp [used]⟩
  rw [used]
  change boot.nextId.toInt = _
  rw [first]
  rfl

/-- The call returns a fresh positive number, whose thread is at the end of the run queue. -/
def Creates (layout : Layout) (fuel : Nat) (name : Option (List UInt8)) (entry arg base : UInt64) (sys : System) : Prop :=
  ∃ id after queue index, threadCreate layout fuel name entry arg (some base) sys = some (id, after) ∧ 0 < id ∧
    (∀ other, (sys.threads (.slot other)).state ≠ .unused → (sys.threads (.slot other)).id ≠ id) ∧
    Sound sys queue ∧ Sound after (queue ++ [.slot index]) ∧ (after.threads (.slot index)).id = id

theorem creates_iff (sound : Sound sys queue) (numbered : Numbered sys) (enough : maxThreads ≤ fuel)
    (small : base.toNat + 8192 < 2 ^ 64) :
    Creates layout fuel name entry arg base sys ↔ ∃ index, (sys.threads (.slot index)).state = .unused := by
  cases found : freeSlot sys with
  | none =>
    have full := freeSlot_none.mp found
    refine iff_of_false ?_ fun ⟨index, free⟩ => full index free
    rintro ⟨id, after, _, _, ran, positive, _⟩
    unfold threadCreate at ran
    rw [found] at ran
    cases ran
    exact absurd positive (by decide)
  | some t =>
    obtain ⟨index, rfl, free⟩ := freeSlot_some found
    obtain ⟨after, ran, queued, id, _⟩ := threadCreate_free sound enough small found
    refine iff_of_true ⟨_, after, queue, index, ran, ?_, fun other used is => ?_, sound, queued, id⟩ ⟨index, free⟩
    · rw [Int32.lt_iff_toInt_lt, numbered.next]
      exact Int.lt_add_one_of_le (Int.natCast_nonneg _)
    · have below := (numbered.below other (by simpa [usedSlots] using used)).2
      rw [is] at below
      exact absurd below (Int.lt_irrefl _)

theorem liveSlots_few : (liveSlots sys).card < maxThreads ↔
    ∃ index, (sys.threads (.slot index)).state = .unused ∨ (sys.threads (.slot index)).state = .dead := by
  have few : (liveSlots sys).card < maxThreads ↔ ∃ index, index ∉ liveSlots sys := by
    rw [← not_forall, ← Finset.eq_univ_iff_forall, ← ne_eq, ← Finset.card_lt_iff_ne_univ, Fintype.card_fin]
  refine few.trans (exists_congr fun index => ?_)
  simp only [liveSlots, Finset.mem_filter, Finset.mem_univ, true_and]
  cases (sys.threads (.slot index)).state <;> decide

/-- `thread_create` succeeds whenever fewer than MAX_THREADS threads are live exactly when the
pool is not full of threads of which some are dead. -/
theorem threadCreate_reuses_iff {boot : System} {events : List Event} (zero : boot.threads = fun _ => Thread.zero)
    (first : boot.nextId = 1) (enough : maxThreads ≤ fuel)
    (run : Run (fun sys event after => Step layout fuel sys event after ∧ event.Granted) (schedInit layout boot) events sys)
    (small : base.toNat + 8192 < 2 ^ 64) :
    ((liveSlots sys).card < maxThreads → Creates layout fuel name entry arg base sys) ↔
      ¬((∀ index, (sys.threads (.slot index)).state ≠ .unused) ∧ ∃ index, (sys.threads (.slot index)).state = .dead) := by
  obtain ⟨⟨queue, sound⟩, numbered⟩ := Run.numbered run enough (schedInit_sound zero) (schedInit_numbered first)
  rw [creates_iff sound numbered enough small]
  rw [liveSlots_few]
  constructor
  · rintro finds ⟨full, dead, is⟩
    obtain ⟨index, free⟩ := finds ⟨dead, .inr is⟩
    exact full index free
  · rintro room ⟨index, free | dead⟩
    · exact ⟨index, free⟩
    · by_contra full
      push Not at full
      exact room ⟨full, index, dead⟩

def fullPool : List Event :=
  (List.range 16).map (fun index => .create none 1 2 (some (UInt64.ofNat (0x10000 * (index + 1))))) ++
    [.start 0 0, .exit 0 0]

theorem threadCreate_reuses_one : ∃ sys, Run (fun sys event after => Step places 16 sys event after ∧ event.Granted)
      (schedInit places blank) [.create none 1 2 (some 0x10000)] sys ∧ (liveSlots sys).card < maxThreads ∧
    Creates places 16 none 3 4 0x20000 sys := by
  have returns : (Event.run places 16 (schedInit places blank) (.create none 1 2 (some 0x10000))).map
      (fun sys => ((liveSlots sys).card, (sys.threads (.slot ⟨1, by decide⟩)).state)) = some (1, .unused) := by
    decide +kernel
  obtain ⟨sys, ran, facts⟩ := Option.map_eq_some_iff.mp returns
  obtain ⟨one, free⟩ := Prod.mk.inj facts
  have run : Run (fun sys event after => Step places 16 sys event after ∧ event.Granted) (schedInit places blank)
      [.create none 1 2 (some 0x10000)] sys := .next ⟨ran, show (0x10000 : UInt64).toNat + 8192 < 2 ^ 64 by decide⟩ (.done sys)
  have few : (liveSlots sys).card < maxThreads := one ▸ by decide
  exact ⟨sys, run, few, (threadCreate_reuses_iff rfl rfl (Nat.le_refl 16) run (by decide)).mpr
    (fun full => full.1 _ free) few⟩

/-- Fifteen threads are left, and there is no slot for another one. -/
theorem exited_slot_lost : ∃ sys, Run (fun sys event after => Step places 16 sys event after ∧ event.Granted)
      (schedInit places blank) fullPool sys ∧ (liveSlots sys).card = 15 ∧
    (threadCreate places 16 none 1 2 (some 0x200000) sys).map Prod.fst = some (-1) := by
  have returns : (fullPool.foldlM (fun sys event => Event.run places 16 sys event) (schedInit places blank)).map
      (fun sys => ((liveSlots sys).card, (threadCreate places 16 none 1 2 (some 0x200000) sys).map Prod.fst)) =
        some (15, some (-1)) := by
    decide +kernel
  obtain ⟨sys, ran, facts⟩ := Option.map_eq_some_iff.mp returns
  refine ⟨sys, (Run.of_foldlM ran).and_events fun event member => ?_, Prod.mk.inj facts⟩
  simp only [fullPool, mem_append, List.mem_map, mem_range] at member
  obtain ⟨index, small, rfl⟩ | member := member
  · change (UInt64.ofNat _).toNat + 8192 < 2 ^ 64
    rw [UInt64.toNat_ofNat_of_lt' (by change _ < 2 ^ 64; omega)]
    omega
  · simp only [mem_cons, not_mem_nil, or_false] at member
    rcases member with rfl | rfl <;> trivial

end GWKernel.Sched
