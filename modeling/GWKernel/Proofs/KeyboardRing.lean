import GWKernel.Kbd
import GWKernel.Lib.PhaseRing

/-! The keyboard ring between the interrupt handler and a reader that is not protected
from it: what is read is what was accepted, in order. -/

namespace GWKernel.Kbd
open Lib List

/-- The ring holds the characters of `accepted` from number `taken` on. -/
structure Holding (kbd : State) (accepted : List UInt8) (taken : Nat) : Prop where
  behind : taken ≤ accepted.length
  room : accepted.length - taken < kbuf
  head : kbd.head = accepted.length % kbuf
  tail : kbd.tail = taken % kbuf
  unread : ∀ index, taken ≤ index → index < accepted.length → accepted[index]? = some (kbd.buf (index % kbuf))

section
variable {kbd : State} {accepted : List UInt8} {taken : Nat} (holding : Holding kbd accepted taken)
include holding

theorem Holding.accepts_iff : accepts kbd = true ↔ accepted.length - taken + 1 < kbuf := by
  have size : kbuf = 64 := rfl
  have behind := holding.behind
  have room := holding.room
  simp only [accepts, holding.head, holding.tail, ne_eq, decide_eq_true_eq, size] at room ⊢
  omega

theorem Holding.empty_iff : kbd.head = kbd.tail ↔ accepted.length = taken := by
  have size : kbuf = 64 := rfl
  have behind := holding.behind
  have room := holding.room
  simp only [holding.head, holding.tail, size] at room ⊢
  omega

theorem Holding.push (char : UInt8) (room : accepts kbd = true) :
    Holding (Kbd.push char kbd) (accepted ++ [char]) taken := by
  have size : kbuf = 64 := rfl
  have space := holding.accepts_iff.mp room
  have behind := holding.behind
  simp only [Kbd.push, room, if_true]
  refine ⟨?_, ?_, ?_, holding.tail, fun index low high => ?_⟩
  · simp only [length_append, length_singleton]
    omega
  · simp only [length_append, length_singleton]
    omega
  · simp only [holding.head, length_append, length_singleton, size]
    omega
  · simp only [length_append, length_singleton] at high
    by_cases new : index = accepted.length
    · simp only [new, holding.head, getElem?_concat_length, if_true]
    · have other : index % kbuf ≠ kbd.head := by
        rw [holding.head]
        exact Ring.cells_differ (by omega) (by omega)
      rw [getElem?_append_left (by omega)]
      simp only [other, if_false]
      exact holding.unread index low (by omega)

theorem Holding.oldest (more : taken < accepted.length) : accepted[taken]? = some (kbd.buf kbd.tail) := by
  rw [holding.tail]
  exact holding.unread taken (Nat.le_refl _) more

theorem Holding.take (more : taken < accepted.length) :
    Holding { kbd with tail := (kbd.tail + 1) % kbuf } accepted (taken + 1) := by
  have room := holding.room
  refine ⟨more, by omega, holding.head, ?_, fun index low high => holding.unread index (by omega) high⟩
  simp only [holding.tail, Nat.mod_add_mod]

end

theorem decode_ring (scancode : UInt8) (kbd : State) :
    (decode scancode kbd).1.buf = kbd.buf ∧ (decode scancode kbd).1.head = kbd.head ∧
      (decode scancode kbd).1.tail = kbd.tail := by
  unfold decode
  dsimp only
  repeat' split
  all_goals exact ⟨rfl, rfl, rfl⟩

variable {kbd : State} {accepted : List UInt8}

theorem Holding.decode {taken : Nat} (holding : Holding kbd accepted taken) (scancode : UInt8) :
    Holding (Kbd.decode scancode kbd).1 accepted taken := by
  obtain ⟨buf, head, tail⟩ := decode_ring scancode kbd
  exact ⟨holding.behind, holding.room, head.trans holding.head, tail.trans holding.tail,
    fun index low high => buf ▸ holding.unread index low high⟩

theorem accepts_decode (scancode : UInt8) (kbd : State) : accepts (Kbd.decode scancode kbd).1 = accepts kbd := by
  obtain ⟨_, head, tail⟩ := decode_ring scancode kbd
  simp only [accepts, head, tail]

def record (char : UInt8) (kbd : State) (accepted : List UInt8) : List UInt8 :=
  if accepts kbd then accepted ++ [char] else accepted

def typed (status scancode : UInt8) (kbd : State) : Option UInt8 :=
  if status &&& 1 = 0 then none else (decode scancode kbd).2

inductive Event where
  | push (char : UInt8)
  | irq (status scancode : UInt8)

inductive Interrupt : State → List UInt8 → Event → State → List UInt8 → Prop where
  | push (kbd : State) (accepted : List UInt8) (char : UInt8) :
      Interrupt kbd accepted (.push char) (push char kbd) (record char kbd accepted)
  | irq (kbd : State) (accepted : List UInt8) (status scancode : UInt8) :
      Interrupt kbd accepted (.irq status scancode) (kbdIrq status scancode kbd)
        ((typed status scancode kbd).elim accepted fun char => record char kbd accepted)

def Rely (kbd : State) (accepted : List UInt8) (after : State) (known : List UInt8) : Prop :=
  accepted <+: known ∧ ∀ taken, Holding kbd accepted taken → Holding after known taken

theorem pushed_rely (char : UInt8) (kbd : State) (accepted : List UInt8) :
    Rely kbd accepted (push char kbd) (record char kbd accepted) := by
  by_cases room : accepts kbd = true
  · simp only [record, room, if_true]
    exact ⟨prefix_append _ _, fun taken holding => holding.push char room⟩
  · simp only [record, push, room]
    exact ⟨prefix_rfl, fun _ holding => holding⟩

theorem Interrupt.rely {after : State} {known : List UInt8} {event : Event}
    (moves : Interrupt kbd accepted event after known) : Rely kbd accepted after known := by
  cases moves with
  | push char => exact pushed_rely char kbd accepted
  | irq status scancode =>
    unfold kbdIrq typed
    split
    · exact ⟨prefix_rfl, fun _ holding => holding⟩
    · have same := accepts_decode scancode kbd
      have moved : ∀ taken, Holding kbd accepted taken → Holding (decode scancode kbd).1 accepted taken :=
        fun _ holding => holding.decode scancode
      generalize decode scancode kbd = decoded at *
      obtain ⟨modified, char⟩ := decoded
      cases char with
      | none => exact ⟨prefix_rfl, moved⟩
      | some char =>
        obtain ⟨grows, keeps⟩ := pushed_rely char modified accepted
        simp only [record, same] at grows keeps
        exact ⟨grows, fun taken holding => keeps taken (moved taken holding)⟩

def chars (returned : List (Return (List UInt8) (Option UInt8))) : List UInt8 := returned.filterMap Return.value

structure Faithful (returned : List (Return (List UInt8) (Option UInt8))) (kbd : State) (accepted : List UInt8) : Prop where
  holding : Holding kbd accepted (chars returned).length
  order : chars returned <+: accepted

theorem Faithful.rely {returned : List (Return (List UInt8) (Option UInt8))} {after : State} {known : List UInt8}
    (faithful : Faithful returned kbd accepted) (moved : Rely kbd accepted after known) :
    Faithful returned after known :=
  ⟨moved.2 _ faithful.holding, faithful.order.trans moved.1⟩

private theorem getc_holds {returned : List (Return (List UInt8) (Option UInt8))} (begun : List UInt8)
    (faithful : Faithful returned kbd accepted) :
    Holds (Faithful returned) Rely
      (fun char after known => Faithful (returned ++ [⟨begun, char, known⟩]) after known)
      kbdGetcNonblock kbd accepted := by
  have test : Holds (Faithful returned) Rely
      (fun empty after known => Faithful returned after known ∧ (¬empty = true → (chars returned).length < known.length))
      (Prog.atomic fun kbd => (kbd.head == kbd.tail, kbd)) kbd accepted := by
    refine Holds.atomic fun seen known moved => ⟨faithful.rely moved, faithful.rely moved, fun some' => ?_⟩
    have holding := (faithful.rely moved).holding
    have behind := holding.behind
    rw [beq_iff_eq, holding.empty_iff] at some'
    omega
  refine test.bind fun empty between known ⟨faithful, more⟩ => Holds.branch (fun _ => ?_) fun no => ?_
  · have none : chars (returned ++ [⟨begun, none, known⟩]) = chars returned := by simp [chars]
    exact Holds.pure ⟨none ▸ faithful.holding, none ▸ faithful.order⟩
  have read : Holds (Faithful returned) Rely
      (fun char after known => Faithful returned after known ∧ known[(chars returned).length]? = some char)
      (Prog.atomic fun kbd => (kbd.buf kbd.tail, kbd)) between known := by
    refine Holds.atomic fun seen known moved => ⟨faithful.rely moved, faithful.rely moved, ?_⟩
    exact (faithful.rely moved).holding.oldest (Nat.lt_of_lt_of_le (more no) moved.1.length_le)
  refine read.bind fun char between known ⟨faithful, oldest⟩ => ?_
  have advance : Holds (Faithful returned) Rely
      (fun _ after known => Faithful (returned ++ [⟨begun, some char, known⟩]) after known)
      (Prog.atomic fun kbd => ((), { kbd with tail := (kbd.tail + 1) % kbuf })) between known := by
    refine Holds.atomic fun seen later moved => ⟨faithful.rely moved, ?_⟩
    have still : later[(chars returned).length]? = some char := by
      obtain ⟨rest, rfl⟩ := moved.1
      rw [getElem?_append_left (List.getElem?_eq_some_iff.mp oldest).1]
      exact oldest
    have more : (chars returned).length < later.length := (List.getElem?_eq_some_iff.mp still).1
    have grown : chars (returned ++ [⟨begun, some char, later⟩]) = chars returned ++ [char] := by simp [chars]
    constructor
    · rw [grown, length_append, length_singleton]
      exact (faithful.rely moved).holding.take more
    · rw [grown]
      exact prefix_next (faithful.rely moved).order still
  exact advance.bind fun _ after known faithful => Holds.pure faithful

theorem getc_rules : Session.Rules Faithful Faithful Rely Interrupt (fun program => program = kbdGetcNonblock) where
  reflexive _ _ := ⟨prefix_rfl, fun _ holding => holding⟩
  transitive first second := ⟨first.1.trans second.1, fun taken holding => second.2 taken (first.2 taken holding)⟩
  within moves := moves.rely
  stable faithful moves := faithful.rely moves.rely
  guarded faithful := faithful
  program is faithful := by
    subst is
    exact getc_holds _ faithful

theorem init_faithful (kbd : State) : Faithful [] (kbdInit kbd) [] := by
  refine ⟨⟨Nat.le_refl _, by decide, rfl, rfl, fun index _ high => ?_⟩, prefix_rfl⟩
  exact absurd high (Nat.not_lt_zero _)

def initial (kbd : State) : Session State (List UInt8) (Option UInt8) := ⟨kbdInit kbd, [], .idle, []⟩

/-- However interrupts and the reader are interleaved, the characters returned are the accepted
ones in order, and one is rejected only when 63 have not been read. -/
theorem keyboard_ring_faithful {kbd : State} {events : List (Session.Event Event)}
    {session : Session State (List UInt8) (Option UInt8)}
    (run : Run (Session.Step Interrupt (fun program => program = kbdGetcNonblock)) (initial kbd) events session) :
    chars session.returned <+: session.history ∧
      (accepts session.state = false → session.history.length = (chars session.returned).length + 63) ∧
      session.state.head < 64 ∧ session.state.tail < 64 := by
  have sound := run.preserves (fun _ _ _ sound moves => Session.Sound.step getc_rules sound moves)
    (show Session.Sound Faithful Faithful Rely (initial kbd) from init_faithful kbd)
  obtain ⟨holding, order⟩ := sound.guarded getc_rules
  have size : kbuf = 64 := rfl
  refine ⟨order, fun full => ?_, ?_, ?_⟩
  · have room := holding.room
    have behind := holding.behind
    have no := holding.accepts_iff
    rw [full] at no
    have limit : ¬session.history.length - (chars session.returned).length + 1 < kbuf := fun space => by
      cases no.mpr space
    omega
  · rw [holding.head]
    exact Nat.mod_lt _ (by decide)
  · rw [holding.tail]
    exact Nat.mod_lt _ (by decide)

theorem keyboard_ring_faithful_typed : ∃ session,
    Run (Session.Step Interrupt (fun program => program = kbdGetcNonblock)) (initial ⟨fun _ => 0, 5, 9, true, false, false⟩)
      [.others (.irq 1 0x1E), .call, .tick, .others (.irq 1 0x30), .tick, .tick] session ∧
    chars session.returned = [0x61] ∧ session.history = [0x61, 0x62] ∧ chars session.returned <+: session.history := by
  have run : Run (Session.Step Interrupt (fun program => program = kbdGetcNonblock))
      (initial ⟨fun _ => 0, 5, 9, true, false, false⟩)
      [.others (.irq 1 0x1E), .call, .tick, .others (.irq 1 0x30), .tick, .tick] _ :=
    .next (.others (.irq _ _ 1 0x1E)) (.next (.call rfl rfl) (.next (.tick rfl)
      (.next (.others (.irq _ _ 1 0x30)) (.next (.tick rfl) (.next (.tick rfl) (.done _))))))
  exact ⟨_, run, rfl, rfl, (keyboard_ring_faithful run).1⟩

end GWKernel.Kbd
