import GWKernel.Sched
import GWKernel.Lib.Chain
import GWKernel.Lib.Run

/-! The run queue holds exactly the threads that are ready, in the order in which they
became so, and yielding hands the processor round. -/

namespace GWKernel.Sched
open Lib List
open UserMode (Machine)

variable {layout : Layout} {fuel : Nat} {sys after : System} {queue : List Ref} {t : Ref}

/-- `queue` is the run queue, and a thread outside it has no successor. -/
structure Queued (sys : System) (queue : List Ref) : Prop where
  links : Links (fun t => (sys.threads t).next) sys.runQueue queue
  loose : ∀ t, t ∉ queue → (sys.threads t).next = none

def Thread.bare (thread : Thread) : Thread := { thread with next := none }

structure Relinked (sys after : System) : Prop where
  bare : ∀ t, (after.threads t).bare = (sys.threads t).bare
  cpu : after.cpu = sys.cpu
  current : after.current = sys.current
  started : after.schedStarted = sys.schedStarted
  id : after.nextId = sys.nextId

theorem Relinked.trans {first second third : System} (one : Relinked first second) (two : Relinked second third) :
    Relinked first third :=
  ⟨fun t => (two.bare t).trans (one.bare t), two.cpu.trans one.cpu, two.current.trans one.current,
    two.started.trans one.started, two.id.trans one.id⟩

theorem Relinked.state (relinked : Relinked sys after) (t : Ref) : (after.threads t).state = (sys.threads t).state := by
  have bare := congrArg Thread.state (relinked.bare t)
  exact bare

theorem modify_same (sys : System) (t : Ref) (change : Thread → Thread) :
    (sys.modify t change).threads t = change (sys.threads t) := if_pos rfl

theorem modify_other {u : Ref} (sys : System) (change : Thread → Thread) (differ : u ≠ t) :
    (sys.modify t change).threads u = sys.threads u := if_neg differ

theorem run_same (sys : System) (t : Ref) : (sys.run t).threads t = { sys.threads t with state := .running } :=
  modify_same sys t fun thread => { thread with state := .running }

theorem run_other {u : Ref} (sys : System) (differ : u ≠ t) : (sys.run t).threads u = sys.threads u :=
  modify_other sys (fun thread => { thread with state := .running }) differ

theorem relinked_modify {change : Thread → Thread} (bare : (change (sys.threads t)).bare = (sys.threads t).bare) :
    Relinked sys (sys.modify t change) := by
  refine ⟨fun u => ?_, rfl, rfl, rfl, rfl⟩
  by_cases here : u = t
  · rw [here, modify_same, bare]
  · rw [modify_other sys change here]

variable {rest : List Ref}

theorem Queued.dequeue (queued : Queued sys (t :: rest)) :
    ∃ after, dequeue sys = (some t, after) ∧ Queued after rest ∧ Relinked sys after := by
  have distinct := nodup_cons.mp queued.links.nodup
  have first := queued.links.start_eq
  refine ⟨_, by unfold Sched.dequeue; rw [first]; rfl, ⟨?_, fun u outside => ?_⟩, ?_⟩
  · refine queued.links.tail.congr fun u member => ?_
    rw [modify_other _ _ (ne_of_mem_of_not_mem member distinct.1)]
  · by_cases here : u = t
    · rw [here, modify_same]
    · rw [modify_other _ _ here]
      exact queued.loose u fun member => (mem_cons.mp member).elim here outside
  · exact ⟨fun u => by
      by_cases here : u = t
      · rw [here, modify_same]; rfl
      · rw [modify_other _ _ here], rfl, rfl, rfl, rfl⟩

theorem dequeue_empty (queued : Queued sys []) : dequeue sys = (none, sys) := by
  unfold dequeue
  rw [queued.links.start_eq]
  rfl

theorem lastFrom_eq {threads : Ref → Thread} {start last : Ref} {before : List Ref}
    (links : Links (fun t => (threads t).next) (some start) (before ++ [last])) (enough : before.length < fuel) :
    lastFrom threads fuel start = some last := by
  induction before generalizing start fuel with
  | nil =>
    obtain ⟨fuel, rfl⟩ := Nat.exists_eq_add_of_lt enough
    obtain rfl : start = last := Option.some.inj links.start_eq
    have ends : (threads start).next = none := links.tail.start_eq
    unfold lastFrom
    rw [ends]
  | cons first before ih =>
    obtain ⟨less, rfl⟩ := Nat.exists_eq_add_of_lt enough
    obtain rfl : start = first := Option.some.inj links.start_eq
    have rest := links.tail
    unfold lastFrom
    cases next : (threads start).next with
    | none =>
      have empty := next.symm.trans rest.start_eq
      cases before <;> cases empty
    | some second =>
      rw [next] at rest
      exact ih rest (by rw [length_cons]; omega)

theorem Queued.modify {change : Thread → Thread} (queued : Queued sys queue) (outside : t ∉ queue)
    (free : (change (sys.threads t)).next = none) : Queued (sys.modify t change) queue := by
  refine ⟨queued.links.congr fun u member => ?_, fun u other => ?_⟩
  · rw [modify_other _ _ (ne_of_mem_of_not_mem member outside)]
  · by_cases here : u = t
    · rw [here, modify_same, free]
    · rw [modify_other _ _ here]
      exact queued.loose u other

theorem Queued.append (queued : Queued sys queue) (outside : t ∉ queue) :
    (queue = [] → Queued { sys with runQueue := some t } [t]) ∧
      ∀ before last, queue = before ++ [last] →
        Queued (sys.modify last fun thread => { thread with next := some t }) (queue ++ [t]) := by
  constructor
  · rintro rfl
    refine ⟨.link ?_, fun u _ => queued.loose u not_mem_nil⟩
    rw [queued.loose t outside]
    exact .done
  · rintro before last rfl
    have distinct : last ∉ before := by
      have nodup := queued.links.nodup
      rw [nodup_append] at nodup
      exact fun member => nodup.2.2 last member last (mem_singleton_self last) rfl
    have differ : t ≠ last := by
      rintro rfl
      exact outside (mem_append_right before (mem_singleton_self t))
    refine ⟨?_, fun u other => ?_⟩
    · rw [append_assoc]
      refine queued.links.extend (fun u member => ?_) ?_
      · rw [modify_other _ _ (ne_of_mem_of_not_mem member distinct)]
      · rw [modify_same]
        refine .link ?_
        rw [modify_other _ _ differ, queued.loose t outside]
        exact .done
    · have notLast : u ≠ last := fun is => other (by simp [is])
      rw [modify_other _ _ notLast]
      exact queued.loose u fun member => other (mem_append_left _ member)

theorem Queued.add (queued : Queued sys queue) (outside : t ∉ queue) (enough : queue.length ≤ fuel) :
    ∃ after, schedAdd fuel t sys = some after ∧ Queued after (queue ++ [t]) ∧ Relinked sys after := by
  have kept : Relinked sys (sys.modify t fun thread => { thread with next := none }) := relinked_modify rfl
  have cleared : Queued (sys.modify t fun thread => { thread with next := none }) queue := queued.modify outside rfl
  unfold schedAdd
  dsimp only
  generalize sys.modify t (fun thread => { thread with next := none }) = middle at kept cleared ⊢
  rcases eq_nil_or_concat queue with rfl | ⟨before, last, rfl⟩
  · have empty : middle.runQueue = none := cleared.links.start_eq
    rw [empty]
    exact ⟨_, rfl, (cleared.append outside).1 rfl, kept.bare, kept.cpu, kept.current, kept.started, kept.id⟩
  · rw [concat_eq_append] at *
    rw [length_append, length_singleton] at enough
    obtain ⟨first, head⟩ : ∃ first, middle.runQueue = some first := by
      rw [cleared.links.start_eq]
      cases before <;> exact ⟨_, rfl⟩
    have links := cleared.links
    rw [head] at links ⊢
    dsimp only
    rw [lastFrom_eq links enough]
    exact ⟨_, rfl, (cleared.append outside).2 before last rfl, kept.trans (relinked_modify rfl)⟩

theorem schedPickNext_empty (queued : Queued sys []) : schedPickNext sys = (none, sys) := by
  unfold schedPickNext maxThreads pickNext
  rw [dequeue_empty queued]

theorem schedPickNext_first (queued : Queued sys (t :: rest)) (ready : (sys.threads t).state = .ready) :
    ∃ after, schedPickNext sys = (some t, after) ∧ Queued after rest ∧ Relinked sys after := by
  obtain ⟨after, taken, left, relinked⟩ := queued.dequeue
  refine ⟨after, ?_, left, relinked⟩
  unfold schedPickNext maxThreads pickNext
  rw [taken]
  exact if_pos ((relinked.state t).trans ready)

/-- The queue consists of the ready threads, and only the current thread runs. -/
structure Sound (sys : System) (queue : List Ref) : Prop where
  queued : Queued sys queue
  ready : ∀ t, (sys.threads t).state = .ready ↔ t ∈ queue
  running : ∀ index, (sys.threads (.slot index)).state = .running → sys.current = some (.slot index)
  turn : ∀ t, sys.current = some t → (sys.threads t).state = .running ∨ (sys.threads t).state = .dead
  idle : (sys.threads .idle).state ≠ .ready
  waits : sys.schedStarted = false → sys.current = some .idle

section
variable (sound : Sound sys queue)
include sound

theorem Sound.same (queued : Queued after queue)
    (state : ∀ t, (after.threads t).state = (sys.threads t).state) (current : after.current = sys.current)
    (started : after.schedStarted = sys.schedStarted) : Sound after queue := by
  refine ⟨queued, fun t => ?_, fun index => ?_, fun t => ?_, ?_, ?_⟩
  · rw [state]
    exact sound.ready t
  · rw [state, current]
    exact sound.running index
  · rw [state, current]
    exact sound.turn t
  · rw [state]
    exact sound.idle
  · rw [started, current]
    exact sound.waits

theorem Sound.cpu (cpu : Machine) : Sound { sys with cpu := cpu } queue :=
  sound.same ⟨sound.queued.links, sound.queued.loose⟩ (fun _ => rfl) rfl rfl

theorem Sound.waiting {t : Ref} (isReady : (sys.threads t).state = .ready) :
    sys.current ≠ some t := by
  intro is
  rcases sound.turn t is with state | state <;> rw [isReady] at state <;> cases state

theorem Sound.slots {t : Ref} (member : t ∈ queue) : ∃ index, t = .slot index := by
  cases t with
  | idle => exact absurd ((sound.ready .idle).mpr member) sound.idle
  | slot index => exact ⟨index, rfl⟩

theorem Sound.length : queue.length ≤ maxThreads := by
  have inside : queue ⊆ (List.finRange maxThreads).map Ref.slot := by
    intro t member
    obtain ⟨index, rfl⟩ := sound.slots member
    exact List.mem_map_of_mem (mem_finRange index)
  have fits := (subperm_of_subset sound.queued.links.nodup inside).length_le
  rwa [length_map, length_finRange] at fits

end

def returning (sys : System) : List Ref :=
  match sys.current with
  | none => []
  | some cur => if cur ≠ .idle ∧ (sys.threads cur).state = .running then [cur] else []

structure Handed (sys after : System) (t : Ref) : Prop where
  current : after.current = some t
  started : after.schedStarted = true
  id : after.nextId = sys.nextId
  cpu : after.cpu = sys.cpu
  bare : ∀ u, (after.threads u).bare = { (sys.threads u).bare with
    state := if u = t then .running else if u ∈ returning sys then .ready else (sys.threads u).state }

theorem mem_returning : t ∈ returning sys ↔ sys.current = some t ∧ t ≠ .idle ∧ (sys.threads t).state = .running := by
  unfold returning
  cases sys.current with
  | none => simp
  | some cur =>
    dsimp only
    split
    next yes =>
      rw [mem_singleton, Option.some.injEq]
      constructor
      · rintro rfl
        exact ⟨rfl, yes⟩
      · exact fun all => all.1.symm
    next no =>
      refine iff_of_false not_mem_nil ?_
      rintro ⟨is, yes⟩
      exact no (Option.some.inj is ▸ yes)

theorem Handed.state (handed : Handed sys after t) (u : Ref) : (after.threads u).state =
    if u = t then .running else if u ∈ returning sys then .ready else (sys.threads u).state := by
  have bare := congrArg Thread.state (handed.bare u)
  exact bare

theorem Handed.sound {rest : List Ref} (handed : Handed sys after t) (sound : Sound sys (t :: rest))
    (queued : Queued after (rest ++ returning sys)) : Sound after (rest ++ returning sys) := by
  have isReady : (sys.threads t).state = .ready := (sound.ready t).mpr mem_cons_self
  have notBack : t ∉ returning sys := fun member => by
    have isRunning := (mem_returning.mp member).2.2
    rw [isReady] at isRunning
    cases isRunning
  have once : t ∉ rest := (nodup_cons.mp sound.queued.links.nodup).1
  refine ⟨queued, fun u => ?_, fun index => ?_, fun u is => ?_, ?_, fun no => ?_⟩
  · rw [handed.state, mem_append]
    split
    next here =>
      subst here
      exact iff_of_false ThreadState.noConfusion (not_or_intro once notBack)
    next other =>
      split
      next back => exact iff_of_true rfl (.inr back)
      next stays =>
        rw [sound.ready, mem_cons, or_iff_right other, or_iff_left stays]
  · rw [handed.state, handed.current]
    split
    next here => exact fun _ => congrArg some here.symm
    next =>
      split
      next => exact fun no => ThreadState.noConfusion no
      next stays =>
        intro isRunning
        exact absurd (mem_returning.mpr ⟨sound.running index isRunning, Ref.noConfusion, isRunning⟩) stays
  · rw [handed.current] at is
    obtain rfl := Option.some.inj is
    rw [handed.state, if_pos rfl]
    exact .inl rfl
  · rw [handed.state]
    have notFirst : Ref.idle ≠ t := by
      rintro rfl
      exact sound.idle isReady
    rw [if_neg notFirst, if_neg fun member => (mem_returning.mp member).2.1 rfl]
    exact sound.idle
  · rw [handed.started] at no
    cases no

structure Requeued (sys after : System) (queue : List Ref) : Prop where
  queued : Queued after (queue ++ returning sys)
  cpu : after.cpu = sys.cpu
  started : after.schedStarted = sys.schedStarted
  id : after.nextId = sys.nextId
  bare : ∀ u, (after.threads u).bare = { (sys.threads u).bare with
    state := if u ∈ returning sys then .ready else (sys.threads u).state }

theorem requeue_spec {middle : System} (queued : Queued middle rest) (relinked : Relinked sys middle)
    (outside : ∀ u ∈ returning sys, u ∉ rest) (enough : rest.length ≤ fuel) :
    ∃ after, requeue fuel sys.current middle = some after ∧ Requeued sys after rest := by
  have unchanged : returning sys = [] → Requeued sys middle rest := by
    intro none
    refine ⟨by rw [none, append_nil]; exact queued, relinked.cpu, relinked.started, relinked.id, fun u => ?_⟩
    rw [relinked.bare, none, if_neg not_mem_nil]
    rfl
  unfold requeue
  cases current : sys.current with
  | none => exact ⟨middle, rfl, unchanged (by unfold returning; rw [current])⟩
  | some cur =>
    dsimp only
    rw [relinked.state]
    split
    next yes =>
      have back : returning sys = [cur] := by
        unfold returning
        rw [current]
        exact if_pos yes
      rw [back] at outside
      have away := outside cur (mem_singleton_self cur)
      obtain ⟨after, added, longer, again⟩ :=
        (@Queued.modify _ _ _ (fun thread => { thread with state := .ready }) queued away (queued.loose cur away)).add away enough
      refine ⟨after, added, by rw [back]; exact longer, again.cpu.trans relinked.cpu, again.started.trans relinked.started,
        again.id.trans relinked.id, fun u => ?_⟩
      rw [again.bare]
      by_cases here : u = cur
      · rw [if_pos (by rw [back, here]; exact mem_singleton_self cur), here, modify_same, ← relinked.bare cur]
        rfl
      · rw [if_neg (by rw [back]; exact fun member => here (mem_singleton.mp member)), modify_other _ _ here,
          relinked.bare]
        rfl
    next no =>
      refine ⟨middle, rfl, unchanged ?_⟩
      unfold returning
      rw [current]
      exact if_neg no

theorem Requeued.handed (requeued : Requeued sys after rest) (started : sys.schedStarted = true)
    (fresh : t ∉ returning sys) : Handed sys (after.run t) t := by
  refine ⟨rfl, requeued.started.trans started, requeued.id, requeued.cpu, fun u => ?_⟩
  have bare := requeued.bare u
  by_cases here : u = t
  · subst here
    rw [if_pos rfl, run_same]
    change { (after.threads u).bare with state := .running } = _
    rw [bare]
  · rw [if_neg here, run_other _ here, bare]

theorem Queued.run (queued : Queued sys queue) (outside : t ∉ queue) : Queued (sys.run t) queue := by
  have modified := @Queued.modify _ _ _ (fun thread => { thread with state := .running }) queued outside
    (queued.loose t outside)
  exact ⟨modified.links, modified.loose⟩

section Turn

variable {rest : List Ref} {back dummy : UInt64}

theorem Sound.hand {middle : System} (sound : Sound sys (t :: rest)) (started : sys.schedStarted = true)
    (left : Queued middle rest) (relinked : Relinked sys middle) (enough : maxThreads ≤ fuel) :
    ∃ after, requeue fuel sys.current middle = some after ∧ Handed sys (after.run t) t ∧
      Sound (after.run t) (rest ++ returning sys) := by
  have distinct := nodup_cons.mp sound.queued.links.nodup
  have notReady : ∀ u ∈ returning sys, u ∉ t :: rest := by
    intro u back member
    have isReady := (sound.ready u).mpr member
    rw [(mem_returning.mp back).2.2] at isReady
    cases isReady
  have fresh : t ∉ returning sys := fun back => notReady t back mem_cons_self
  have few := sound.length
  rw [length_cons] at few
  obtain ⟨after, requeued, facts⟩ := requeue_spec left relinked
    (fun u back member => notReady u back (mem_cons_of_mem t member)) (show rest.length ≤ fuel by omega)
  have handed := facts.handed started fresh
  have outside : t ∉ rest ++ returning sys := by
    rw [mem_append]
    exact not_or_intro distinct.1 fresh
  exact ⟨after, requeued, handed, handed.sound sound (facts.queued.run outside)⟩

theorem schedOnTimer_stays (sound : Sound sys queue) (nothing : sys.schedStarted = false ∨ queue = []) :
    schedOnTimer layout fuel back dummy sys = some sys := by
  unfold schedOnTimer
  split
  next => rfl
  next started =>
    obtain rfl := nothing.resolve_left started
    rw [schedPickNext_empty sound.queued]

theorem schedOnTimer_hands (layout : Layout) (back dummy : UInt64) (sound : Sound sys (t :: rest))
    (started : sys.schedStarted = true) (enough : maxThreads ≤ fuel) : ∃ middle,
      schedOnTimer layout fuel back dummy sys =
        some (switchTo layout back (savesTo layout sys.current dummy) t middle) ∧
      Handed sys middle t ∧ Sound middle (rest ++ returning sys) := by
  have isReady : (sys.threads t).state = .ready := (sound.ready t).mpr mem_cons_self
  obtain ⟨picked, picks, left, relinked⟩ := schedPickNext_first sound.queued isReady
  obtain ⟨after, requeued, handed, next⟩ := sound.hand started left relinked enough
  refine ⟨after.run t, ?_, handed, next⟩
  unfold schedOnTimer
  rw [if_neg (by rw [started]; exact Bool.noConfusion), picks]
  dsimp only
  rw [if_neg (sound.waiting isReady), requeued]
  rfl

theorem schedStart_cases (layout : Layout) (back discard : UInt64) (sound : Sound sys queue)
    (waiting : sys.schedStarted = false) :
    queue = [] ∧ schedStart layout back discard sys = { sys with schedStarted := true } ∨
      ∃ t rest middle, queue = t :: rest ∧ schedStart layout back discard sys = switchTo layout back discard t middle ∧
        Handed { sys with schedStarted := true } middle t ∧ Sound middle rest := by
  have begun : Sound { sys with schedStarted := true } queue :=
    ⟨⟨sound.queued.links, sound.queued.loose⟩, sound.ready, sound.running, sound.turn, sound.idle, Bool.noConfusion⟩
  have current : sys.current = some .idle := sound.waits waiting
  have nobody : returning { sys with schedStarted := true } = [] := by
    unfold returning
    rw [current]
    exact if_neg fun no => no.1 rfl
  unfold schedStart
  cases queue with
  | nil =>
    rw [schedPickNext_empty begun.queued]
    exact .inl ⟨rfl, rfl⟩
  | cons t rest =>
    obtain ⟨picked, picks, left, relinked⟩ := schedPickNext_first begun.queued ((begun.ready t).mpr mem_cons_self)
    obtain ⟨after, requeued, handed, next⟩ := begun.hand rfl left relinked (Nat.le_refl maxThreads)
    rw [nobody, append_nil] at next
    -- `sched_start` puts nobody back.
    obtain rfl : picked = after := by
      rw [current] at requeued
      exact Option.some.inj requeued
    rw [picks]
    exact .inr ⟨t, rest, picked.run t, rfl, rfl, handed, next⟩

end Turn

theorem pushAll_keeps (values : List UInt64) (sp : UInt64) (sys : System) :
    ∃ mem, (pushAll values sp sys).2 = { sys with cpu := { sys.cpu with mem := mem } } := by
  induction values generalizing sp sys with
  | nil => exact ⟨sys.cpu.mem, rfl⟩
  | cons value rest ih => exact ih (sp - 8) (sys.store (sp - 8) value)

structure Built (sys built : System) (t : Ref) : Prop where
  state : (built.threads t).state = .ready
  next : (built.threads t).next = none
  others : ∀ u, u ≠ t → built.threads u = sys.threads u
  current : built.current = sys.current
  queue : built.runQueue = sys.runQueue
  started : built.schedStarted = sys.schedStarted

theorem buildThread_built (name : Option (List UInt8)) (entry arg stack : UInt64) (t : Ref) (sys : System) :
    Built sys (buildThread layout name entry arg stack t sys).2 t := by
  unfold buildThread
  dsimp only
  generalize is : ({ sys with nextId := sys.nextId + 1 } : System).modify t _ = filled
  obtain ⟨mem, pushed⟩ := pushAll_keeps (initialFrame layout entry arg)
    ((stack + threadStackSize) &&& 0xFFFFFFFFFFFFFFF0) filled
  rw [pushed]
  subst is
  refine ⟨?_, ?_, fun u differ => ?_, rfl, rfl, rfl⟩
  · simp [System.modify, System.store]
  · simp [System.modify, System.store]
  · simp [System.modify, System.store, differ]

theorem freeSlot_some (found : freeSlot sys = some t) : ∃ index, t = .slot index ∧ (sys.threads t).state = .unused := by
  obtain ⟨index, first, rfl⟩ := Option.map_eq_some_iff.mp found
  have unused := find?_some first
  exact ⟨index, rfl, of_decide_eq_true unused⟩

section Create

variable {built : System} (sound : Sound sys queue) (free : (sys.threads t).state = .unused)
include sound free

theorem Sound.not_current (u : Ref) (is : sys.current = some u) : u ≠ t := by
  rintro rfl
  rcases sound.turn u is with state | state <;> rw [free] at state <;> cases state

theorem Sound.not_queued : t ∉ queue := by
  intro member
  have isReady := (sound.ready t).mpr member
  rw [free] at isReady
  cases isReady

theorem Built.queued_sound (build : Built sys built t) (slot : t ≠ .idle) (queued : Queued after (queue ++ [t]))
    (relinked : Relinked built after) : Sound after (queue ++ [t]) := by
  have state : ∀ u, (after.threads u).state = if u = t then .ready else (sys.threads u).state := by
    intro u
    rw [relinked.state]
    split
    next here => rw [here, build.state]
    next other => rw [build.others u other]
  have current : after.current = sys.current := relinked.current.trans build.current
  refine ⟨queued, fun u => ?_, fun index isRunning => ?_, fun u is => ?_, ?_, fun no => ?_⟩
  · rw [state, mem_append, mem_singleton]
    split
    next here => exact iff_of_true rfl (.inr here)
    next other => rw [sound.ready, or_iff_left other]
  · rw [state] at isRunning
    split at isRunning
    next => cases isRunning
    next => exact current.trans (sound.running index isRunning)
  · rw [current] at is
    rw [state, if_neg (sound.not_current free u is)]
    exact sound.turn u is
  · rw [state, if_neg slot.symm]
    exact sound.idle
  · rw [current]
    exact sound.waits ((build.started.symm.trans relinked.started.symm).trans no)

theorem Built.queued (build : Built sys built t) : Queued built queue := by
  refine ⟨?_, fun u outside => ?_⟩
  · rw [build.queue]
    refine sound.queued.links.congr fun u member => ?_
    rw [build.others u (ne_of_mem_of_not_mem member (sound.not_queued free))]
  · by_cases here : u = t
    · rw [here, build.next]
    · rw [build.others u here]
      exact sound.queued.loose u outside

theorem Built.given_up (build : Built sys built t) :
    Sound (built.modify t fun thread => { thread with state := .unused }) queue := by
  refine sound.same ((build.queued sound free).modify (sound.not_queued free) build.next) (fun u => ?_) build.current
    build.started
  by_cases here : u = t
  · rw [here, modify_same, free]
  · rw [modify_other _ _ here, build.others u here]

end Create

theorem threadCreate_cases {name : Option (List UInt8)} {entry arg : UInt64} {stack : Option UInt64}
    (sound : Sound sys queue) (enough : maxThreads ≤ fuel) :
    ∃ result after, threadCreate layout fuel name entry arg stack sys = some (result, after) ∧
      (after = sys ∧ result = -1 ∨
        ∃ index base, stack = some base ∧ (sys.threads (.slot index)).state = .unused ∧
          (after = (buildThread layout name entry arg base (.slot index) sys).2.modify (.slot index)
              (fun thread => { thread with state := .unused }) ∧ result = -1 ∧ Sound after queue ∨
            Relinked (buildThread layout name entry arg base (.slot index) sys).2 after ∧
              Sound after (queue ++ [.slot index]))) := by
  unfold threadCreate
  cases found : freeSlot sys with
  | none => exact ⟨-1, sys, rfl, .inl ⟨rfl, rfl⟩⟩
  | some t =>
    cases stack with
    | none => exact ⟨-1, sys, rfl, .inl ⟨rfl, rfl⟩⟩
    | some base =>
      obtain ⟨index, rfl, free⟩ := freeSlot_some found
      have build := @buildThread_built layout name entry arg base (.slot index) sys
      dsimp only
      split
      next =>
        exact ⟨_, _, rfl, .inr ⟨index, base, rfl, free, .inl ⟨rfl, rfl, build.given_up sound free⟩⟩⟩
      next =>
        obtain ⟨after, added, queued, relinked⟩ := (build.queued sound free).add (sound.not_queued free)
          (Nat.le_trans sound.length enough)
        rw [added]
        exact ⟨_, after, rfl, .inr ⟨index, base, rfl, free,
          .inr ⟨relinked, build.queued_sound sound free Ref.noConfusion queued relinked⟩⟩⟩

theorem Sound.kill (sound : Sound sys queue) (is : sys.current = some t) :
    Sound (sys.modify t fun thread => { thread with state := .dead }) queue := by
  have state : ∀ u, ((sys.modify t fun thread => { thread with state := .dead }).threads u).state =
      if u = t then .dead else (sys.threads u).state := by
    intro u
    split
    next here => rw [here, modify_same]
    next other => rw [modify_other _ _ other]
  have outside : t ∉ queue := by
    intro member
    have isReady := (sound.ready t).mpr member
    rcases sound.turn t is with state | state <;> rw [isReady] at state <;> cases state
  refine ⟨sound.queued.modify outside (sound.queued.loose t outside), fun u => ?_, fun index isRunning => ?_,
    fun u same => ?_, ?_, sound.waits⟩
  · rw [state]
    split
    next here =>
      subst here
      exact iff_of_false ThreadState.noConfusion outside
    next => exact sound.ready u
  · rw [state] at isRunning
    split at isRunning
    next => cases isRunning
    next => exact sound.running index isRunning
  · rw [state]
    split
    next => exact .inr rfl
    next => exact sound.turn u same
  · rw [state]
    split
    next => exact ThreadState.noConfusion
    next => exact sound.idle

/-- The current thread changes the processor and its memory only, or calls the scheduler. -/
inductive Event where
  | work (cpu : Machine)
  | create (name : Option (List UInt8)) (entry arg : UInt64) (stack : Option UInt64)
  | start (back discard : UInt64)
  | yield (back dummy : UInt64)
  | exit (back dummy : UInt64)

def Event.run (layout : Layout) (fuel : Nat) (sys : System) : Event → Option System
  | work cpu => some { sys with cpu := cpu }
  | create name entry arg stack => (threadCreate layout fuel name entry arg stack sys).map Prod.snd
  | start back discard => if sys.schedStarted then none else some (schedStart layout back discard sys)
  | yield back dummy => threadYield layout fuel back dummy sys
  | exit back dummy => threadExit layout fuel back dummy sys

def Step (layout : Layout) (fuel : Nat) (sys : System) (event : Event) (after : System) : Prop :=
  event.run layout fuel sys = some after

def Buries (sys after : System) : Prop :=
  ∀ index, (sys.threads (.slot index)).state = .dead →
    (after.threads (.slot index)).state = .dead ∧
      (after.current = some (.slot index) → sys.current = some (.slot index))

theorem Buries.refl (sys : System) : Buries sys sys := fun _ dead => ⟨dead, id⟩

theorem Buries.trans {first second third : System} (one : Buries first second) (two : Buries second third) :
    Buries first third := by
  intro index dead
  obtain ⟨still, before⟩ := one index dead
  obtain ⟨last, middle⟩ := two index still
  exact ⟨last, before ∘ middle⟩

theorem Handed.buries (handed : Handed sys after t) (isReady : (sys.threads t).state = .ready) : Buries sys after := by
  intro index dead
  have other : Ref.slot index ≠ t := by
    rintro rfl
    rw [isReady] at dead
    cases dead
  have stays : Ref.slot index ∉ returning sys := by
    intro member
    rw [(mem_returning.mp member).2.2] at dead
    cases dead
  constructor
  · rw [handed.state, if_neg other, if_neg stays, dead]
  · intro is
    rw [handed.current] at is
    exact absurd (Option.some.inj is).symm other

theorem schedOnTimer_sound (sound : Sound sys queue) (enough : maxThreads ≤ fuel) (back dummy : UInt64) :
    ∃ after, schedOnTimer layout fuel back dummy sys = some after ∧ (∃ now, Sound after now) ∧ Buries sys after := by
  cases started : sys.schedStarted with
  | false => exact ⟨sys, schedOnTimer_stays sound (.inl started), ⟨queue, sound⟩, .refl sys⟩
  | true =>
    cases queue with
    | nil => exact ⟨sys, schedOnTimer_stays sound (.inr rfl), ⟨[], sound⟩, .refl sys⟩
    | cons t rest =>
      obtain ⟨middle, ran, handed, next⟩ := schedOnTimer_hands layout back dummy sound started enough
      exact ⟨_, ran, ⟨_, next.cpu _⟩, handed.buries ((sound.ready t).mpr mem_cons_self)⟩

theorem schedStart_sound (sound : Sound sys queue) (waiting : sys.schedStarted = false) (back discard : UInt64) :
    (∃ now, Sound (schedStart layout back discard sys) now) ∧ Buries sys (schedStart layout back discard sys) := by
  rcases schedStart_cases layout back discard sound waiting with ⟨rfl, ran⟩ | ⟨t, rest, middle, rfl, ran, handed, next⟩
  · rw [ran]
    exact ⟨⟨[], ⟨sound.queued.links, sound.queued.loose⟩, sound.ready, sound.running, sound.turn, sound.idle,
      Bool.noConfusion⟩, .refl sys⟩
  · rw [ran]
    exact ⟨⟨rest, next.cpu _⟩, handed.buries ((sound.ready t).mpr mem_cons_self)⟩

theorem threadCreate_sound {name : Option (List UInt8)} {entry arg : UInt64} {stack : Option UInt64}
    (sound : Sound sys queue) (enough : maxThreads ≤ fuel) :
    ∃ result after, threadCreate layout fuel name entry arg stack sys = some (result, after) ∧
      (∃ now, Sound after now) ∧ Buries sys after := by
  obtain ⟨result, after, ran, ⟨rfl, _⟩ | ⟨index, base, _, free, outcome⟩⟩ :=
    @threadCreate_cases layout fuel sys queue name entry arg stack sound enough
  · exact ⟨result, after, ran, ⟨queue, sound⟩, .refl after⟩
  have build := @buildThread_built layout name entry arg base (.slot index) sys
  have other : ∀ {u}, (sys.threads (.slot u)).state = .dead → Ref.slot u ≠ .slot index := by
    intro u dead is
    rw [is, free] at dead
    cases dead
  generalize (buildThread layout name entry arg base (.slot index) sys).2 = built at build outcome
  rcases outcome with ⟨rfl, _, now⟩ | ⟨relinked, now⟩
  · refine ⟨result, _, ran, ⟨queue, now⟩, fun u dead => ⟨?_, fun is => ?_⟩⟩
    · rw [modify_other _ _ (other dead), build.others _ (other dead), dead]
    · exact build.current.symm.trans is
  · refine ⟨result, after, ran, ⟨_, now⟩, fun u dead => ⟨?_, fun is => ?_⟩⟩
    · rw [relinked.state, build.others _ (other dead), dead]
    · exact (relinked.current.trans build.current).symm.trans is

theorem threadExit_sound (sound : Sound sys queue) (enough : maxThreads ≤ fuel) (back dummy : UInt64) :
    ∃ after, threadExit layout fuel back dummy sys = some after ∧ (∃ now, Sound after now) ∧ Buries sys after := by
  unfold threadExit
  cases current : sys.current with
  | none => exact schedOnTimer_sound sound enough back dummy
  | some t =>
    obtain ⟨after, ran, now, buries⟩ := schedOnTimer_sound (sound.kill current) enough back dummy
    have killed : Buries sys (sys.modify t fun thread => { thread with state := .dead }) := by
      refine fun index dead => ⟨?_, id⟩
      by_cases here : Ref.slot index = t
      · rw [here, modify_same]
      · rw [modify_other _ _ here, dead]
    exact ⟨after, ran, now, killed.trans buries⟩

theorem Event.sound (sound : Sound sys queue) (enough : maxThreads ≤ fuel) (event : Event)
    (once : ∀ back discard, event = .start back discard → sys.schedStarted = false) :
    ∃ after, event.run layout fuel sys = some after ∧ (∃ now, Sound after now) ∧ Buries sys after := by
  cases event with
  | work cpu => exact ⟨_, rfl, ⟨queue, sound.cpu cpu⟩, .refl sys⟩
  | create name entry arg stack =>
    obtain ⟨result, after, ran, facts⟩ := @threadCreate_sound layout fuel sys queue name entry arg stack sound enough
    exact ⟨after, by rw [Event.run, ran]; rfl, facts⟩
  | start back discard =>
    have waiting := once back discard rfl
    exact ⟨_, by rw [Event.run, waiting]; rfl, schedStart_sound sound waiting back discard⟩
  | yield back dummy => exact schedOnTimer_sound sound enough back dummy
  | exit back dummy => exact threadExit_sound sound enough back dummy

theorem Step.sound {event : Event} (sound : Sound sys queue) (enough : maxThreads ≤ fuel)
    (step : Step layout fuel sys event after) : (∃ now, Sound after now) ∧ Buries sys after := by
  have once : ∀ back discard, event = .start back discard → sys.schedStarted = false := by
    rintro back discard rfl
    have ran : (if sys.schedStarted then none else some (schedStart layout back discard sys)) = some after := step
    split at ran
    next => cases ran
    next waiting => exact Bool.eq_false_iff.mpr waiting
  obtain ⟨same, ran, facts⟩ := @Event.sound layout fuel sys queue sound enough event once
  rw [step] at ran
  obtain rfl := Option.some.inj ran
  exact facts

theorem Run.sound {events : List Event} (run : Run (Step layout fuel) sys events after)
    (enough : maxThreads ≤ fuel) (sound : Sound sys queue) : (∃ now, Sound after now) ∧ Buries sys after := by
  induction run generalizing queue with
  | done sys => exact ⟨⟨queue, sound⟩, .refl sys⟩
  | next step _ ih =>
    obtain ⟨⟨now, middle⟩, first⟩ := Step.sound sound enough step
    obtain ⟨last, rest⟩ := ih middle
    exact ⟨last, first.trans rest⟩

theorem schedInit_sound (zero : sys.threads = fun _ => Thread.zero) : Sound (schedInit layout sys) [] := by
  have idle : ((schedInit layout sys).threads .idle).state = .running := rfl
  have slot : ∀ index, (schedInit layout sys).threads (.slot index) = Thread.zero := by
    intro index
    change { sys.threads (.slot index) with state := .unused } = Thread.zero
    rw [zero]
    rfl
  refine ⟨⟨.done, fun t _ => ?_⟩, fun t => ?_, fun index is => ?_, fun t is => ?_, ?_, fun _ => rfl⟩
  · cases t with
    | idle => rfl
    | slot index => rw [slot, Thread.zero]
  · refine iff_of_false (fun is => ?_) not_mem_nil
    cases t with
    | idle => cases is
    | slot index =>
      cases is
  · rw [slot] at is
    cases is
  · cases is
    exact .inl rfl
  · rw [idle]
    exact ThreadState.noConfusion

/-- The state after some yields from `sys` on: `ring` is the current thread followed by
the queue. -/
structure Turns (sys after : System) (ring : List Ref) : Prop where
  sound : Sound after ring.tail
  current : after.current = ring.head?
  running : ∀ c, ring.head? = some c → c ≠ .idle ∧ (after.threads c).state = .running
  started : after.schedStarted = true
  begun : sys.schedStarted = true
  id : after.nextId = sys.nextId
  others : ∀ u, u ∉ ring → (after.threads u).state = (sys.threads u).state
  fields : ∀ u, { (after.threads u).bare with state := .unused } = { (sys.threads u).bare with state := .unused }

theorem Turns.yield {c : Ref} (turns : Turns sys after (c :: rest)) (layout : Layout) (enough : maxThreads ≤ fuel)
    (cpu : Machine) (back dummy : UInt64) :
    ∃ next, threadYield layout fuel back dummy { after with cpu := cpu } = some next ∧ Turns sys next (rest ++ [c]) := by
  have sound := turns.sound.cpu cpu
  cases rest with
  | nil =>
    refine ⟨_, schedOnTimer_stays sound (.inr rfl), ?_⟩
    exact ⟨sound, turns.current, turns.running, turns.started, turns.begun, turns.id, turns.others, turns.fields⟩
  | cons t rest =>
    obtain ⟨middle, ran, handed, next⟩ := schedOnTimer_hands layout back dummy sound turns.started enough
    obtain ⟨slot, isRunning⟩ := turns.running c rfl
    have back : returning { after with cpu := cpu } = [c] := by
      rw [turns.current]
      exact if_pos ⟨slot, isRunning⟩
    rw [back] at next
    refine ⟨_, ran, next.cpu _, handed.current, ?_, handed.started, turns.begun, handed.id.trans turns.id,
      fun u outside => ?_, fun u => ?_⟩
    · rintro u ⟨⟩
      obtain ⟨index, rfl⟩ := sound.slots mem_cons_self
      exact ⟨Ref.noConfusion, (handed.state _).trans (if_pos rfl)⟩
    · rw [cons_append, mem_cons, mem_append, mem_singleton] at outside
      push Not at outside
      have away : u ∉ returning { after with cpu := cpu } := by
        rw [back, mem_singleton]
        exact outside.2.2
      refine ((handed.state u).trans ?_).trans (turns.others u ?_)
      · rw [if_neg outside.1, if_neg away]
      · simp [outside]
    · have bare := congrArg (fun thread : Thread => { thread with state := .unused }) (handed.bare u)
      exact bare.trans (turns.fields u)

def yieldAll (layout : Layout) (fuel : Nat) (calls : List (Machine × UInt64 × UInt64)) (sys : System) : Option System :=
  calls.foldlM (fun sys call => threadYield layout fuel call.2.1 call.2.2 { sys with cpu := call.1 }) sys

theorem Turns.yieldAll {ring : List Ref} (turns : Turns sys after ring) (layout : Layout) (nonempty : ring ≠ [])
    (enough : maxThreads ≤ fuel) (calls : List (Machine × UInt64 × UInt64)) :
    ∃ next, yieldAll layout fuel calls after = some next ∧ Turns sys next (ring.rotate calls.length) := by
  induction calls generalizing after ring with
  | nil => exact ⟨after, rfl, by rw [length_nil, rotate_zero]; exact turns⟩
  | cons call rest ih =>
    obtain ⟨c, queue, rfl⟩ := exists_cons_of_ne_nil nonempty
    obtain ⟨middle, first, turned⟩ := turns.yield layout enough call.1 call.2.1 call.2.2
    obtain ⟨next, ran, last⟩ := ih turned (by simp)
    refine ⟨next, ?_, ?_⟩
    · unfold Sched.yieldAll at ran ⊢
      rw [foldlM_cons, first]
      exact ran
    · rw [length_cons, rotate_cons_succ]
      exact last

theorem Thread.eq_of_fields {one two : Thread}
    (fields : { one.bare with state := .unused } = ({ two.bare with state := .unused } : Thread))
    (state : one.state = two.state) (next : one.next = two.next) : one = two := by
  obtain ⟨id, _, name, entry, arg, stackTop, stackBase, _⟩ := one
  obtain rfl := state
  obtain rfl := next
  simp only [Thread.bare, Thread.mk.injEq] at fields
  simp [fields]

theorem Turns.around {c : Ref} (turns : Turns sys after (c :: queue)) (sound : Sound sys queue)
    (current : sys.current = some c) (isRunning : (sys.threads c).state = .running) :
    after = { sys with cpu := after.cpu } := by
  have state : ∀ u, (after.threads u).state = (sys.threads u).state := by
    intro u
    by_cases first : u = c
    · rw [first, (turns.running c rfl).2, isRunning]
    by_cases queued : u ∈ queue
    · rw [(turns.sound.ready u).mpr queued, (sound.ready u).mpr queued]
    · exact turns.others u fun member => (mem_cons.mp member).elim first queued
  have next : ∀ u, (after.threads u).next = (sys.threads u).next := by
    intro u
    by_cases queued : u ∈ queue
    · exact turns.sound.queued.links.next_eq sound.queued.links queued
    · rw [turns.sound.queued.loose u queued, sound.queued.loose u queued]
  have threads : after.threads = sys.threads :=
    funext fun u => Thread.eq_of_fields (turns.fields u) (state u) (next u)
  have head : after.runQueue = sys.runQueue := by
    rw [turns.sound.queued.links.start_eq, sound.queued.links.start_eq]
    rfl
  have same := turns.current.trans current.symm
  have started := turns.started.trans turns.begun.symm
  have id := turns.id
  obtain ⟨cpu, _, _, _, _, _⟩ := after
  obtain rfl := threads
  obtain rfl := same
  obtain rfl := head
  obtain rfl := started
  obtain rfl := id
  rfl

/-- In every run the run queue is a list without duplicates of exactly the ready threads; a pool
thread that runs is the current one; a dead thread stays so and is neither queued nor current
again; every call returns; and as many yields as there are runnable threads give each of them one
turn, in the order of the queue. -/
theorem scheduler_takes_turns {layout : Layout} {fuel : Nat} {boot sys : System} {events : List Event}
    (zero : boot.threads = fun _ => Thread.zero) (enough : maxThreads ≤ fuel)
    (run : Run (Step layout fuel) (schedInit layout boot) events sys) :
    ∃ queue, Links (fun t => (sys.threads t).next) sys.runQueue queue ∧ queue.Nodup ∧
      (∀ t, t ∈ queue ↔ ∃ index, t = .slot index ∧ (sys.threads t).state = .ready) ∧
      (∀ index, (sys.threads (.slot index)).state = .running → sys.current = some (.slot index)) ∧
      (∀ more last, Run (Step layout fuel) sys more last → ∀ index, (sys.threads (.slot index)).state = .dead →
        (∀ later, Links (fun t => (last.threads t).next) last.runQueue later → .slot index ∉ later) ∧
        (last.current = some (.slot index) → sys.current = some (.slot index))) ∧
      (∀ event : Event, (∀ back discard, event = .start back discard → sys.schedStarted = false) →
        ∃ after, Step layout fuel sys event after) ∧
      (∀ index, sys.current = some (.slot index) → (sys.threads (.slot index)).state = .running →
        ∀ calls : List (Machine × UInt64 × UInt64), calls.length = queue.length + 1 →
          (∀ turn, turn ≤ queue.length → ∃ middle, yieldAll layout fuel (calls.take (turn + 1)) sys = some middle ∧
            middle.current = (queue ++ [.slot index])[turn]?) ∧
          ∃ last, yieldAll layout fuel calls sys = some last ∧ last = { sys with cpu := last.cpu }) := by
  obtain ⟨⟨queue, sound⟩, _⟩ := Run.sound run enough (schedInit_sound zero)
  refine ⟨queue, sound.queued.links, sound.queued.links.nodup, fun t => ?_, sound.running, ?_, ?_, ?_⟩
  · rw [← sound.ready]
    constructor
    · intro isReady
      obtain ⟨index, rfl⟩ := sound.slots ((sound.ready t).mp isReady)
      exact ⟨index, rfl, isReady⟩
    · rintro ⟨_, _, isReady⟩
      exact isReady
  · intro more last rest index dead
    obtain ⟨⟨later, final⟩, buries⟩ := Run.sound rest enough sound
    obtain ⟨still, before⟩ := buries index dead
    refine ⟨fun other links member => ?_, before⟩
    rw [links.unique final.queued.links] at member
    have isReady := (final.ready (.slot index)).mpr member
    rw [still] at isReady
    cases isReady
  · intro event once
    obtain ⟨after, ran, _⟩ := @Event.sound layout fuel sys queue sound enough event once
    exact ⟨after, ran⟩
  · intro index current isRunning calls length
    have started : sys.schedStarted = true := by
      by_contra waiting
      have idle := sound.waits (Bool.eq_false_iff.mpr waiting)
      rw [current] at idle
      cases idle
    have begins : Turns sys sys (.slot index :: queue) :=
      ⟨sound, current, by rintro c ⟨⟩; exact ⟨Ref.noConfusion, isRunning⟩, started, started, rfl, fun _ _ => rfl,
        fun _ => rfl⟩
    constructor
    · intro turn small
      obtain ⟨middle, ran, turned⟩ := begins.yieldAll layout (cons_ne_nil _ _) enough (calls.take (turn + 1))
      refine ⟨middle, ran, turned.current.trans ?_⟩
      rw [length_take, length, min_eq_left (by omega), rotate_cons_succ, head?_rotate]
      rw [length_append, length_singleton]
      omega
    · obtain ⟨last, ran, turned⟩ := begins.yieldAll layout (cons_ne_nil _ _) enough calls
      have whole : calls.length = (Ref.slot index :: queue).length := length
      rw [whole, rotate_length] at turned
      exact ⟨last, ran, turned.around sound current isRunning⟩

def blank : System :=
  ⟨⟨fun _ => 0, fun _ => 0, 0, 0, 0, fun _ => 0, false, 0, 0⟩, fun _ => Thread.zero, none, none, false, 1⟩

def places : Layout := ⟨0x8000, 0x8010, fun
  | .idle => 0x9000
  | .slot index => UInt64.ofNat (0xA000 + 8 * index)⟩

def twoThreads : List Event :=
  [.create none 1 2 (some 0x10000), .create none 3 4 (some 0x20000), .create none 5 6 none, .start 0 0, .yield 0 0]

theorem scheduler_takes_turns_two : ∃ (sys : System) (queue : List Ref),
    Run (Step places 16) (schedInit places blank) twoThreads sys ∧ sys.current = some (.slot ⟨1, by decide⟩) ∧
    (∀ t, t ∈ queue ↔ ∃ index, t = .slot index ∧ (sys.threads t).state = .ready) := by
  have returns : (twoThreads.foldlM (fun sys event => Event.run places 16 sys event) (schedInit places blank)).map
      System.current = some (some (.slot ⟨1, by decide⟩)) := by
    decide +kernel
  obtain ⟨sys, ran, current⟩ := Option.map_eq_some_iff.mp returns
  have run := Run.of_foldlM ran
  obtain ⟨queue, _, _, ready, _⟩ := scheduler_takes_turns rfl (Nat.le_refl 16) run
  exact ⟨sys, queue, run, current, ready⟩

end GWKernel.Sched
