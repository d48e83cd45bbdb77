import GWKernel.Proofs.RoundRobin
import GWKernel.Proofs.UserReturn
import GWKernel.Lib.Word

/-! What a thread finds when `context_switch` comes back to it: its stack and the cell with its
stack pointer hold what it needs to go on. -/

namespace GWKernel.Sched
open Lib
open UserMode (Machine Reg Instr exec calleeSaved Stack Pushed)

variable {layout : Layout} {fuel : Nat} {sys after : System} {m : Machine} {back old new : UInt64}

def pushedRegs : List Reg := [.rbp, .rbx, .r12, .r13, .r14, .r15]

def savedFrame (m : Machine) (back : UInt64) : List UInt64 := pushedRegs.reverse.map m.regs ++ [back]

def switchCall (old new back : UInt64) (m : Machine) : Machine :=
  exec contextSwitch (((m.set .rdi old).set .rsi new).push back)

structure Saves (m after : Machine) (old : Nat) (back : UInt64) : Prop where
  cell : (word after.mem old).toNat = m.sp - 56
  frame : Words after.mem (m.sp - 56) (savedFrame m back)
  agree : ∀ address size, address + size ≤ m.sp - 56 ∨ m.sp ≤ address → address + size ≤ old ∨ old + 8 ≤ address →
    Mem.Agree after.mem m.mem address size

theorem ret_mem (m : Machine) : m.ret.mem = m.mem := rfl

theorem ret_regs {reg : Reg} (m : Machine) (differ : reg ≠ .rsp) : m.ret.regs reg = m.regs reg :=
  UserMode.set_other m _ differ

theorem ret_sp (m : Machine) (below : m.sp + 8 < 2 ^ 64) : m.ret.sp = m.sp + 8 := by
  change (m.regs .rsp + 8).toNat = (m.regs .rsp).toNat + 8
  rw [UInt64.toNat_add]
  exact Nat.mod_eq_of_lt below

theorem exec_ret (m : Machine) : exec [.ret] m = m.ret := rfl

theorem switchCall_halves (room : 56 ≤ m.sp) : ∃ pushed loaded : Machine,
    Pushed ((m.set .rdi old).set .rsi new) pushed (savedFrame m back) ∧
      loaded.mem = setWord pushed.mem old.toNat (pushed.regs .rsp) ∧ loaded.regs .rsp = new ∧
      switchCall old new back m = (exec (pushedRegs.reverse.map .pop) loaded).ret := by
  have halves : contextSwitch =
      pushedRegs.map .push ++ ([.store .rdi .rsp, .mov .rsp .rsi] ++ (pushedRegs.reverse.map .pop ++ [.ret])) := rfl
  generalize is : (m.set .rdi old).set .rsi new = ready
  have rdi : ready.regs .rdi = old := by rw [← is]; rfl
  have rsi : ready.regs .rsi = new := by rw [← is]; rfl
  have sp : ready.sp = m.sp := by rw [← is]; rfl
  have values : pushedRegs.map (ready.push back).regs = pushedRegs.map m.regs := by rw [← is]; rfl
  have pushes := (Pushed.refl ready).pushes (back :: pushedRegs.map m.regs) (by rw [sp]; exact room)
  have frame : (back :: pushedRegs.map m.regs).reverse ++ [] = savedFrame m back := rfl
  rw [frame] at pushes
  generalize made : (back :: pushedRegs.map m.regs).foldl Machine.push ready = pushed at pushes
  refine ⟨pushed, exec [.store .rdi .rsp, .mov .rsp .rsi] pushed, pushes, ?_, ?_, ?_⟩
  · rw [← rdi, ← pushes.regs .rdi (by decide)]
    rfl
  · rw [← rsi, ← pushes.regs .rsi (by decide)]
    rfl
  · rw [List.foldl_cons] at made
    unfold switchCall
    rw [is, halves, UserMode.exec_append, UserMode.exec_append, UserMode.exec_append,
      UserMode.exec_pushes _ (by decide), values, made, exec_ret]

theorem exec_pops_mem (regs : List Reg) (m : Machine) : (exec (regs.map .pop) m).mem = m.mem := by
  induction regs generalizing m with
  | nil => rfl
  | cons reg rest ih => exact ih (m.pop reg)

theorem switch_saves (room : 56 ≤ m.sp) (apart : old.toNat + 8 ≤ m.sp - 56 ∨ m.sp ≤ old.toNat) :
    Saves m (switchCall old new back m) old.toNat back := by
  obtain ⟨pushed, loaded, pushes, mem, _, is⟩ := @switchCall_halves m back old new room
  have same : (switchCall old new back m).mem = loaded.mem := by
    rw [is, ret_mem, exec_pops_mem]
  have down : pushed.sp = m.sp - 56 := by
    have sp := pushes.sp
    change pushed.sp + 56 = m.sp at sp
    omega
  rw [mem] at same
  refine ⟨?_, ?_, fun address size outside notCell => ?_⟩
  · rw [same, word_setWord]
    exact down
  · rw [same, ← down]
    refine pushes.stack.agree (setWord_agree _ _ ?_)
    change pushed.sp + 56 ≤ _ ∨ _
    omega
  · rw [same]
    refine (setWord_agree _ _ notCell).trans (pushes.agree address size ?_)
    rw [down]
    exact outside

theorem switch_restores {values : List UInt64} {ret : UInt64} (room : 56 ≤ m.sp) (length : values.length = 6)
    (frame : Words (switchCall old new back m).mem new.toNat (values ++ [ret])) (below : new.toNat + 56 < 2 ^ 64) :
    pushedRegs.reverse.map (switchCall old new back m).regs = values ∧ (switchCall old new back m).rip = ret ∧
      (switchCall old new back m).sp = new.toNat + 56 := by
  obtain ⟨pushed, loaded, _, _, rsp, is⟩ := @switchCall_halves m back old new room
  have same : (switchCall old new back m).mem = loaded.mem := by
    rw [is, ret_mem, exec_pops_mem]
  have sp : loaded.sp = new.toNat := congrArg UInt64.toNat rsp
  rw [same, ← sp] at frame
  obtain ⟨popped, left, up, _, _⟩ := UserMode.Stack.pops frame
    (show values.length = pushedRegs.reverse.length from length) (by decide) (by decide) (by
      rw [sp]
      exact Nat.lt_of_le_of_lt (Nat.add_le_add_left (by decide) _) below)
  have depth : 8 * pushedRegs.reverse.length = 48 := rfl
  rw [depth, sp] at up
  generalize exec (pushedRegs.reverse.map .pop) loaded = last at is popped left up
  rw [is]
  refine ⟨?_, left.1, ?_⟩
  · rw [← popped]
    refine List.map_congr_left fun reg member => ret_regs _ ?_
    rintro rfl
    revert member
    decide
  · rw [ret_sp _ (by omega), up]

theorem pushAll_eq (values : List UInt64) (sys : System) (m : Machine) (mem : m.mem = sys.cpu.mem) :
    pushAll values (m.regs .rsp) sys = ((values.foldl Machine.push m).regs .rsp,
      { sys with cpu := { sys.cpu with mem := (values.foldl Machine.push m).mem } }) := by
  induction values generalizing sys m with
  | nil =>
    rw [List.foldl_nil, mem]
    rfl
  | cons value rest ih =>
    refine (ih (sys.store (m.regs .rsp - 8) value) (m.push value) ?_)
    change setWord m.mem (m.regs .rsp - 8).toNat value = setWord sys.cpu.mem (m.regs .rsp - 8).toNat value
    rw [mem]

def stackOf (sys : System) (t : Ref) : Span := ⟨(sys.threads t).stackBase.toNat, 8192⟩

def cellOf (layout : Layout) (t : Ref) : Span := ⟨(layout.rspCell t).toNat, 8⟩

def savedSp (layout : Layout) (sys : System) (t : Ref) : Nat := (word sys.cpu.mem (layout.rspCell t).toNat).toNat

def firstFrame (layout : Layout) (entry arg : UInt64) : List UInt64 :=
  [0, 0, 0, 0, 0, 0] ++ [layout.threadTrampoline] ++ [arg, entry]

theorem alignedTop {base : UInt64} (small : base.toNat + 8192 < 2 ^ 64) :
    ((base + threadStackSize) &&& 0xFFFFFFFFFFFFFFF0).toNat = (base.toNat + 8192) / 16 * 16 := by
  have size : threadStackSize.toNat = 8192 := by decide
  have top : (base + threadStackSize).toNat = base.toNat + 8192 := by
    rw [UInt64.toNat_add, size]
    exact Nat.mod_eq_of_lt small
  have mask : (0xFFFFFFFFFFFFFFF0 : UInt64).toNat = 2 ^ 64 - 2 ^ 4 := by decide
  rw [toNat_and_field _ (by decide) mask, top, Nat.mod_eq_of_lt small, show (2 : Nat) ^ 4 = 16 from rfl]

structure Framed (layout : Layout) (sys built : System) (t : Ref) (entry arg base : UInt64) : Prop where
  stack : (built.threads t).stackBase = base
  low : base.toNat ≤ savedSp layout built t
  high : savedSp layout built t + 72 ≤ base.toNat + 8192
  frame : Words built.cpu.mem (savedSp layout built t) (firstFrame layout entry arg)
  agree : ∀ address size, address + size ≤ base.toNat ∨ base.toNat + 8192 ≤ address →
    address + size ≤ (layout.rspCell t).toNat ∨ (layout.rspCell t).toNat + 8 ≤ address →
    Mem.Agree built.cpu.mem sys.cpu.mem address size

theorem buildThread_framed (name : Option (List UInt8)) (entry arg : UInt64) {base : UInt64} {t : Ref} (sys : System)
    (small : base.toNat + 8192 < 2 ^ 64) (apart : (⟨base.toNat, 8192⟩ : Span).Apart (cellOf layout t)) :
    Framed layout sys (buildThread layout name entry arg base t sys).2 t entry arg base := by
  have aligned := alignedTop small
  simp only [Span.Apart, cellOf] at apart
  unfold buildThread
  dsimp only
  generalize filling : ({ sys with nextId := sys.nextId + 1 } : System).modify t _ = filled
  have mem : filled.cpu.mem = sys.cpu.mem := by rw [← filling]; rfl
  have based : (filled.threads t).stackBase = base := by rw [← filling, modify_same]
  generalize ((base + threadStackSize) &&& 0xFFFFFFFFFFFFFFF0) = top at aligned ⊢
  generalize begins : sys.cpu.set .rsp top = m
  have rsp : m.regs .rsp = top := by rw [← begins]; rfl
  have same : m.mem = filled.cpu.mem := by rw [mem, ← begins]; rfl
  have sp : m.sp = (base.toNat + 8192) / 16 * 16 := by rw [← aligned, ← rsp]; rfl
  have pushes := (Pushed.refl m).pushes (initialFrame layout entry arg) (by
    change 72 ≤ m.sp
    omega)
  have frame : (initialFrame layout entry arg).reverse ++ [] = firstFrame layout entry arg := rfl
  rw [frame] at pushes
  rw [← rsp, pushAll_eq _ _ _ same]
  generalize (initialFrame layout entry arg).foldl Machine.push m = pushed at pushes
  have down : pushed.sp + 72 = m.sp := pushes.sp
  -- The stack pointer goes into the thread after the frame has been written.
  have cell : ∀ other : System, other.cpu.mem = setWord pushed.mem (layout.rspCell t).toNat (pushed.regs .rsp) →
      savedSp layout other t = pushed.sp := by
    intro other is
    unfold savedSp
    rw [is, word_setWord]
    rfl
  refine ⟨?_, ?_, ?_, ?_, fun address size outside notCell => ?_⟩
  · rw [modify_same]
    exact based
  · rw [cell _ rfl]
    omega
  · rw [cell _ rfl]
    omega
  · rw [cell _ rfl]
    refine pushes.stack.agree (setWord_agree _ _ ?_)
    change pushed.sp + 72 ≤ _ ∨ _
    omega
  · rw [← mem, ← same]
    exact (setWord_agree _ _ notCell).trans (pushes.agree address size (by omega))

/-- How a thread came to wait: it was created, or it has called `context_switch`, to return to
`back`. -/
inductive Origin where
  | fresh (entry arg : UInt64)
  | called (m : Machine) (back : UInt64)

/-- The thread's stack holds what it needs to go on. -/
def Suspended (layout : Layout) (sys : System) (t : Ref) : Origin → Prop
  | .fresh entry arg =>
    (stackOf sys t).start ≤ savedSp layout sys t ∧ savedSp layout sys t + 72 ≤ (stackOf sys t).start + 8192 ∧
      Words sys.cpu.mem (savedSp layout sys t) (firstFrame layout entry arg)
  | .called m back =>
    (stackOf sys t).start ≤ savedSp layout sys t ∧ savedSp layout sys t + 56 = m.sp ∧
      m.sp ≤ (stackOf sys t).start + 8192 ∧ Words sys.cpu.mem (savedSp layout sys t) (savedFrame m back) ∧
      Mem.Agree sys.cpu.mem m.mem m.sp ((stackOf sys t).start + 8192 - m.sp)

theorem Suspended.agree {t : Ref} {origin : Origin} (suspended : Suspended layout sys t origin)
    (base : (after.threads t).stackBase = (sys.threads t).stackBase)
    (stack : Mem.Agree after.cpu.mem sys.cpu.mem (stackOf sys t).start 8192)
    (cell : Mem.Agree after.cpu.mem sys.cpu.mem (cellOf layout t).start 8) : Suspended layout after t origin := by
  have sp : savedSp layout after t = savedSp layout sys t := congrArg UInt64.toNat (word_agree cell)
  have start : (stackOf after t).start = (stackOf sys t).start := congrArg UInt64.toNat base
  cases origin with
  | fresh entry arg =>
    obtain ⟨low, high, frame⟩ := suspended
    unfold Suspended
    rw [sp, start]
    exact ⟨low, high, frame.agree (stack.within low (show _ + 72 ≤ _ by omega))⟩
  | called m back =>
    obtain ⟨low, depth, high, frame, rest⟩ := suspended
    unfold Suspended
    rw [sp, start]
    refine ⟨low, depth, high, frame.agree (stack.within low ?_), (stack.within ?_ ?_).trans rest⟩
    · change _ + 56 ≤ _
      omega
    · omega
    · omega

def Owns (sys : System) (t : Ref) : Prop := t ≠ .idle ∧ (sys.threads t).state ≠ .unused

structure Separate (layout : Layout) (boot : Span) (sys : System) : Prop where
  small : ∀ t, Owns sys t → (stackOf sys t).start + 8192 < 2 ^ 64
  boot : ∀ t, Owns sys t → (stackOf sys t).Apart boot
  cells : ∀ t, Owns sys t → ∀ u, (stackOf sys t).Apart (cellOf layout u)
  apart : ∀ t u, Owns sys t → Owns sys u → t ≠ u → (stackOf sys t).Apart (stackOf sys u)

/-- The cells of the threads and the stack that the kernel was started on are different
objects, too. -/
structure Placed (layout : Layout) (boot : Span) : Prop where
  cells : ∀ t u, t ≠ u → (cellOf layout t).Apart (cellOf layout u)
  boot : ∀ t, boot.Apart (cellOf layout t)

def ownStack (sys : System) (boot : Span) : Span :=
  match sys.current with
  | some (.slot index) => stackOf sys (.slot index)
  | _ => boot

/-- The stack has room for the call. A local variable whose address it gets is on the boot stack.
-/
structure Calls (boot : Span) (sys : System) (dummy : UInt64) : Prop where
  low : (ownStack sys boot).start + 56 ≤ sys.cpu.sp
  high : sys.cpu.sp ≤ (ownStack sys boot).start + (ownStack sys boot).size
  dummy : (∀ index, sys.current ≠ some (.slot index)) →
    sys.cpu.sp ≤ dummy.toNat ∧ dummy.toNat + 8 ≤ boot.start + boot.size

theorem Sound.owns_current {queue : List Ref} {t : Ref} (sound : Sound sys queue) (is : sys.current = some t)
    (slot : t ≠ .idle) : Owns sys t := by
  refine ⟨slot, fun unused => ?_⟩
  rcases sound.turn t is with state | state <;> rw [unused] at state <;> cases state

theorem Sound.owns_ready {queue : List Ref} {t : Ref} (sound : Sound sys queue)
    (isReady : (sys.threads t).state = .ready) : Owns sys t := by
  refine ⟨fun is => ?_, fun unused => ?_⟩
  · rw [is] at isReady
    exact sound.idle isReady
  · rw [isReady] at unused
    cases unused

section Switch

variable {boot : Span} {dummy : UInt64} {queue : List Ref} (placed : Placed layout boot)
  (separate : Separate layout boot sys) (sound : Sound sys queue) (calls : Calls boot sys dummy)

theorem current_cases (layout : Layout) (sys : System) (boot : Span) (dummy : UInt64) :
    (∃ index, sys.current = some (.slot index) ∧ ownStack sys boot = stackOf sys (.slot index) ∧
        savesTo layout sys.current dummy = layout.rspCell (.slot index)) ∨
      (∀ index, sys.current ≠ some (.slot index)) ∧ ownStack sys boot = boot ∧
        savesTo layout sys.current dummy = dummy := by
  unfold ownStack savesTo
  cases sys.current with
  | none => exact .inr ⟨fun _ => nofun, rfl, rfl⟩
  | some t =>
    cases t with
    | idle => exact .inr ⟨fun _ => nofun, rfl, rfl⟩
    | slot index => exact .inl ⟨index, rfl, rfl, rfl⟩

include separate sound calls

theorem switch_saves_here (new back : UInt64) :
    Saves sys.cpu (switchCall (savesTo layout sys.current dummy) new back sys.cpu)
      (savesTo layout sys.current dummy).toNat back := by
  have low := calls.low
  have high := calls.high
  refine switch_saves (by omega) ?_
  rcases current_cases layout sys boot dummy with ⟨index, is, own, old⟩ | ⟨none, own, old⟩
  · have apart := separate.cells _ (sound.owns_current is Ref.noConfusion) (.slot index)
    rw [own] at low high
    rw [old]
    simp only [Span.Apart, cellOf, stackOf] at apart low high
    omega
  · rw [old]
    exact .inr (calls.dummy none).1

theorem switch_suspends {u : Ref} {new back : UInt64} (current : sys.current = some u) (slot : u ≠ .idle)
    (cpu : after.cpu = switchCall (savesTo layout sys.current dummy) new back sys.cpu)
    (base : (after.threads u).stackBase = (sys.threads u).stackBase) :
    Suspended layout after u (.called sys.cpu back) := by
  have saves := switch_saves_here separate sound calls new back
  have apart := separate.cells u (sound.owns_current current slot) u
  have low := calls.low
  have high := calls.high
  rw [← cpu] at saves
  rcases current_cases layout sys boot dummy with ⟨index, is, own, old⟩ | ⟨none, _⟩
  swap
  · cases u with
    | idle => exact absurd rfl slot
    | slot index => exact absurd current (none index)
  obtain rfl : u = .slot index := Option.some.inj (current.symm.trans is)
  rw [own] at low high
  rw [old] at saves
  have start : (stackOf after (.slot index)).start = (stackOf sys (.slot index)).start := congrArg UInt64.toNat base
  have sp : savedSp layout after (.slot index) = sys.cpu.sp - 56 := saves.cell
  have size : (stackOf sys (.slot index)).size = 8192 := rfl
  simp only [Span.Apart, cellOf] at apart
  unfold Suspended
  rw [sp, start]
  refine ⟨by omega, by omega, by omega, saves.frame, saves.agree _ _ (by omega) (by omega)⟩

theorem switch_agrees {span : Span} (stack : span.Apart (ownStack sys boot))
    (cell : span.Apart ⟨(savesTo layout sys.current dummy).toNat, 8⟩) (new back : UInt64) :
    Mem.Agree (switchCall (savesTo layout sys.current dummy) new back sys.cpu).mem sys.cpu.mem span.start span.size := by
  have low := calls.low
  have high := calls.high
  simp only [Span.Apart] at stack cell
  exact (switch_saves_here separate sound calls new back).agree _ _ (by omega) (by omega)

include placed

theorem switch_spares {u : Ref} (owns : Owns sys u) (other : sys.current ≠ some u) (new back : UInt64) :
    Mem.Agree (switchCall (savesTo layout sys.current dummy) new back sys.cpu).mem sys.cpu.mem (stackOf sys u).start 8192 ∧
      Mem.Agree (switchCall (savesTo layout sys.current dummy) new back sys.cpu).mem sys.cpu.mem (cellOf layout u).start 8 := by
  rcases current_cases layout sys boot dummy with ⟨index, is, own, old⟩ | ⟨none, own, old⟩
  · have differ : u ≠ .slot index := fun same => other (same ▸ is)
    have mine := sound.owns_current is Ref.noConfusion
    constructor
    · refine switch_agrees separate sound calls ?_ ?_ new back
      · rw [own]
        exact separate.apart u _ owns mine differ
      · rw [old]
        exact separate.cells u owns _
    · refine switch_agrees separate sound calls ?_ ?_ new back
      · rw [own]
        exact (separate.cells _ mine u).symm
      · rw [old]
        exact placed.cells u _ differ
  · have inside := calls.dummy none
    have low := calls.low
    rw [own] at low
    have stack := separate.boot u owns
    have cell := (placed.boot u).symm
    constructor
    · refine switch_agrees separate sound calls (by rw [own]; exact stack) ?_ new back
      rw [old]
      simp only [Span.Apart] at stack ⊢
      omega
    · refine switch_agrees separate sound calls (by rw [own]; exact cell) ?_ new back
      rw [old]
      simp only [Span.Apart] at cell ⊢
      omega

end Switch

/-- The thread goes on after its call of `context_switch`, with the registers that the convention
keeps and the stack above the stack pointer, or on its way to the call of its entry. -/
def Resumes (layout : Layout) (after : System) (t : Ref) : Origin → Prop
  | .fresh entry arg => after.cpu.rip = layout.threadTrampoline ∧
      (threadTrampoline layout after.cpu).rip = entry ∧ (threadTrampoline layout after.cpu).regs .rdi = arg
  | .called m back => after.cpu.rip = back ∧ (∀ reg ∈ calleeSaved, after.cpu.regs reg = m.regs reg) ∧
      after.cpu.regs .rsp = m.regs .rsp ∧ Mem.Agree after.cpu.mem m.mem m.sp ((stackOf after t).start + 8192 - m.sp)

theorem threadTrampoline_calls {arg entry : UInt64} (stack : Stack m [arg, entry]) (room : m.sp + 16 < 2 ^ 64) :
    (threadTrampoline layout m).rip = entry ∧ (threadTrampoline layout m).regs .rdi = arg := by
  unfold threadTrampoline
  dsimp only
  generalize is : ({ m with rflags := m.rflags ||| 0x200 } : Machine) = enabled
  have sp : enabled.sp = m.sp := by rw [← is]; rfl
  have same : Stack enabled [arg, entry] := by rw [← is]; exact stack
  obtain ⟨next, up, first, _⟩ := @UserMode.Stack.pop enabled [entry] arg .rdi same (by omega) (by decide)
  obtain ⟨_, _, second, kept⟩ := @UserMode.Stack.pop _ [] entry .rax next (by omega) (by decide)
  exact ⟨second, (UserMode.push_regs _ _ (by decide)).trans ((kept .rdi (by decide) (by decide)).trans first)⟩

theorem Suspended.resumes {t : Ref} {origin : Origin} (suspended : Suspended layout after t origin)
    (cpu : after.cpu = switchCall old new back m) (is : new.toNat = savedSp layout after t) (room : 56 ≤ m.sp)
    (small : (stackOf after t).start + 8192 < 2 ^ 64) : Resumes layout after t origin := by
  cases origin with
  | fresh entry arg =>
    obtain ⟨low, high, frame⟩ := suspended
    rw [← is] at high
    rw [cpu, ← is, firstFrame, Words.append_iff] at frame
    obtain ⟨_, rip, sp⟩ := switch_restores room rfl frame.1 (by omega)
    have stack : Stack after.cpu [arg, entry] := by
      unfold UserMode.Stack
      rw [cpu, sp]
      exact frame.2
    refine ⟨by rw [cpu, rip], threadTrampoline_calls stack ?_⟩
    rw [cpu, sp]
    omega
  | called caller back =>
    obtain ⟨low, depth, high, frame, rest⟩ := suspended
    rw [cpu, ← is, savedFrame] at frame
    rw [← is] at depth
    obtain ⟨regs, rip, sp⟩ := switch_restores room rfl frame (by omega)
    refine ⟨by rw [cpu, rip], fun reg member => ?_, ?_, rest⟩
    · have kept : ∀ reg ∈ calleeSaved, reg ∈ pushedRegs.reverse := by decide
      rw [cpu]
      exact List.map_inj_left.mp regs reg (kept reg member)
    · rw [cpu]
      exact UInt64.toNat_inj.mp (sp.trans depth)

structure Kept (layout : Layout) (boot : Span) (sys : System) (origins : Ref → Option Origin) : Prop where
  sound : ∃ queue, Sound sys queue
  separate : Separate layout boot sys
  saved : ∀ t, (sys.threads t).state = .ready → ∃ origin, origins t = some origin ∧ Suspended layout sys t origin

/-- Where the current thread was when it switched, and what a new thread was created with. -/
def record (origins : Ref → Option Origin) (sys after : System) : Event → Ref → Option Origin
  | .create _ entry arg _ => fun t =>
    if (sys.threads t).state = .unused ∧ (after.threads t).state ≠ .unused then some (.fresh entry arg) else origins t
  | .yield back _ | .exit back _ =>
    if after.current = sys.current then origins
    else fun t => if sys.current = some t then some (.called sys.cpu back) else origins t
  | .work _ | .start _ _ => origins

/-- Each stack is the thread's own: the current thread writes to it and to memory that is no stack
and no cell, and it has room for the call of `context_switch`. -/
def Fits (layout : Layout) (boot : Span) (sys : System) : Event → Prop
  | .work cpu => (∀ t, Owns sys t → sys.current ≠ some t →
      Mem.Agree cpu.mem sys.cpu.mem (stackOf sys t).start 8192) ∧
      ∀ t, Mem.Agree cpu.mem sys.cpu.mem (cellOf layout t).start 8
  | .create _ _ _ stack => ∀ base, stack = some base → base.toNat + 8192 < 2 ^ 64 ∧
      (⟨base.toNat, 8192⟩ : Span).Apart boot ∧ (∀ u, (⟨base.toNat, 8192⟩ : Span).Apart (cellOf layout u)) ∧
      ∀ u, Owns sys u → (⟨base.toNat, 8192⟩ : Span).Apart (stackOf sys u)
  | .start _ dummy | .yield _ dummy | .exit _ dummy => Calls boot sys dummy

variable {boot : Span} {origins : Ref → Option Origin} {queue : List Ref}

theorem Separate.update {t : Ref} (separate : Separate layout boot sys)
    (known : ∀ u, Owns after u → Owns sys u ∧ stackOf after u = stackOf sys u ∨
      u = t ∧ (stackOf after u).start + 8192 < 2 ^ 64 ∧ (stackOf after u).Apart boot ∧
        (∀ v, (stackOf after u).Apart (cellOf layout v)) ∧ ∀ v, Owns sys v → (stackOf after u).Apart (stackOf sys v)) :
    Separate layout boot after := by
  refine ⟨fun u owned => ?_, fun u owned => ?_, fun u owned => ?_, fun u v owned also differ => ?_⟩
  · rcases known u owned with ⟨old, is⟩ | ⟨-, small, -⟩
    · exact is ▸ separate.small u old
    · exact small
  · rcases known u owned with ⟨old, is⟩ | ⟨-, -, fromBoot, -⟩
    · exact is ▸ separate.boot u old
    · exact fromBoot
  · rcases known u owned with ⟨old, is⟩ | ⟨-, -, -, fromCells, -⟩
    · exact is ▸ separate.cells u old
    · exact fromCells
  · rcases known u owned with ⟨old, is⟩ | ⟨here, -, -, -, away⟩ <;>
      rcases known v also with ⟨older, same⟩ | ⟨there, -, -, -, apart⟩
    · exact is ▸ same ▸ separate.apart u v old older differ
    · exact is ▸ (apart u old).symm
    · exact same ▸ away v older
    · exact absurd (here.trans there.symm) differ

theorem Separate.same (separate : Separate layout boot sys) (owns : ∀ t, Owns after t → Owns sys t)
    (base : ∀ t, (after.threads t).stackBase = (sys.threads t).stackBase) : Separate layout boot after :=
  @Separate.update _ _ _ _ .idle separate fun u owned => .inl ⟨owns u owned, by rw [stackOf, base, stackOf]⟩

theorem Kept.work {cpu : Machine} (kept : Kept layout boot sys origins) (fits : Fits layout boot sys (.work cpu)) :
    Kept layout boot { sys with cpu := cpu } origins := by
  obtain ⟨queue, sound⟩ := kept.sound
  refine ⟨⟨queue, sound.cpu cpu⟩, kept.separate.same (fun _ => id) (fun _ => rfl), fun t isReady => ?_⟩
  obtain ⟨origin, is, suspended⟩ := kept.saved t isReady
  exact ⟨origin, is, suspended.agree rfl (fits.1 t (sound.owns_ready isReady) (sound.waiting isReady)) (fits.2 t)⟩

theorem Handed.base {t : Ref} (handed : Handed sys after t) (u : Ref) :
    (after.threads u).stackBase = (sys.threads u).stackBase := by
  have bare := congrArg Thread.stackBase (handed.bare u)
  exact bare

theorem Handed.owns {t : Ref} (handed : Handed sys after t) (isReady : (sys.threads t).state = .ready)
    {u : Ref} (owned : Owns after u) : Owns sys u := by
  refine ⟨owned.1, fun unused => owned.2 ?_⟩
  have notFirst : u ≠ t := by
    rintro rfl
    rw [isReady] at unused
    cases unused
  have stays : u ∉ returning sys := fun member => by
    rw [(mem_returning.mp member).2.2] at unused
    cases unused
  rw [handed.state, if_neg notFirst, if_neg stays, unused]

theorem Kept.switch {t : Ref} {rest : List Ref} {middle : System} {dummy : UInt64} (placed : Placed layout boot)
    (separate : Separate layout boot sys) (sound : Sound sys (t :: rest))
    (saved : ∀ t, (sys.threads t).state = .ready → ∃ origin, origins t = some origin ∧ Suspended layout sys t origin)
    (calls : Calls boot sys dummy) (handed : Handed sys middle t) (next : Sound middle (rest ++ returning sys))
    (is : after = switchTo layout back (savesTo layout sys.current dummy) t middle) :
    (∃ origin, origins t = some origin ∧ Resumes layout after t origin) ∧
      Kept layout boot after (fun u => if sys.current = some u then some (.called sys.cpu back) else origins u) := by
  have isReady : (sys.threads t).state = .ready := (sound.ready t).mpr List.mem_cons_self
  have owned := sound.owns_ready isReady
  have threads : after.threads = middle.threads := by rw [is]; rfl
  have cpu : after.cpu = switchCall (savesTo layout sys.current dummy)
      (word sys.cpu.mem (layout.rspCell t).toNat) back sys.cpu := by
    rw [is, ← handed.cpu]
    rfl
  have base : ∀ u, (after.threads u).stackBase = (sys.threads u).stackBase := by
    rw [threads]
    exact handed.base
  have apart : Separate layout boot after := by
    refine separate.same (fun u owned => handed.owns isReady ?_) base
    unfold Owns at owned ⊢
    rw [← threads]
    exact owned
  -- Threads that do not call are left alone.
  have spared : ∀ {u}, (sys.threads u).state = .ready →
      Mem.Agree after.cpu.mem sys.cpu.mem (stackOf sys u).start 8192 ∧
        Mem.Agree after.cpu.mem sys.cpu.mem (cellOf layout u).start 8 := by
    intro u ready
    rw [cpu]
    exact switch_spares placed separate sound calls (sound.owns_ready ready) (sound.waiting ready) _ back
  have later : Sound after (rest ++ returning sys) := by
    rw [is]
    exact next.cpu _
  refine ⟨?_, ⟨_, later⟩, apart, fun u ready => ?_⟩
  · obtain ⟨origin, known, suspended⟩ := saved t isReady
    obtain ⟨stack, cell⟩ := spared isReady
    refine ⟨origin, known, (suspended.agree (base t) stack cell).resumes cpu ?_ ?_ ?_⟩
    · exact congrArg UInt64.toNat (word_agree cell).symm
    · have low := calls.low
      omega
    · have small := separate.small t owned
      unfold stackOf at small ⊢
      rw [base t]
      exact small
  · rw [threads, handed.state] at ready
    split at ready
    next => cases ready
    next =>
      split at ready
      next member =>
        obtain ⟨current, slot, _⟩ := mem_returning.mp member
        exact ⟨_, if_pos current, switch_suspends separate sound calls current slot cpu (base u)⟩
      next =>
        obtain ⟨origin, known, suspended⟩ := saved u ready
        obtain ⟨stack, cell⟩ := spared ready
        exact ⟨origin, (if_neg (sound.waiting ready)).trans known, suspended.agree (base u) stack cell⟩

section
variable (kept : Kept layout boot sys origins)
include kept

theorem Kept.extend {name : Option (List UInt8)} {entry arg base : UInt64} {t : Ref} {built : System}
    (placed : Placed layout boot)
    (fits : Fits layout boot sys (.create name entry arg (some base))) (free : (sys.threads t).state = .unused)
    (framed : Framed layout sys built t entry arg base) (later : ∃ queue, Sound after queue) (cpu : after.cpu = built.cpu)
    (others : ∀ u, u ≠ t → (after.threads u).state = (sys.threads u).state ∧
      (after.threads u).stackBase = (sys.threads u).stackBase)
    (mine : (after.threads t).state ≠ .unused → (after.threads t).stackBase = base) :
    Kept layout boot after (record origins sys after (.create name entry arg (some base))) := by
  obtain ⟨-, -, fromCells, fromStacks⟩ := fits base rfl
  obtain ⟨queue, sound⟩ := kept.sound
  refine ⟨later, @Separate.update _ _ _ _ t kept.separate fun u owned => ?_, fun u ready => ?_⟩
  · by_cases here : u = t
    · subst here
      rw [stackOf, mine owned.2]
      exact .inr ⟨rfl, fits base rfl⟩
    · refine .inl ⟨⟨owned.1, (others u here).1 ▸ owned.2⟩, ?_⟩
      rw [stackOf, (others u here).2, stackOf]
  · by_cases here : u = t
    · subst here
      have live : (after.threads u).state ≠ .unused := by
        rw [ready]
        exact ThreadState.noConfusion
      refine ⟨_, if_pos ⟨free, live⟩, ?_⟩
      unfold Suspended stackOf savedSp
      rw [cpu, mine live]
      exact ⟨framed.low, framed.high, framed.frame⟩
    · rw [(others u here).1] at ready
      obtain ⟨origin, known, suspended⟩ := kept.saved u ready
      have owned := sound.owns_ready ready
      have away := fromStacks u owned
      have notCell := kept.separate.cells u owned t
      have cell := fromCells u
      have cells := placed.cells u t here
      simp only [Span.Apart, cellOf] at away notCell cell cells
      refine ⟨origin, (if_neg fun new => ?_).trans known, suspended.agree (others u here).2 ?_ ?_⟩
      · rw [ready] at new
        cases new.1
      · rw [cpu]
        exact framed.agree _ _ (Or.symm away) notCell
      · rw [cpu]
        exact framed.agree _ _ (Or.symm cell) cells

theorem Kept.congr {other : Ref → Option Origin}
    (same : ∀ t, (sys.threads t).state = .ready → other t = origins t) : Kept layout boot sys other := by
  refine ⟨kept.sound, kept.separate, fun t ready => ?_⟩
  rw [same t ready]
  exact kept.saved t ready

theorem Kept.create {name : Option (List UInt8)} {entry arg : UInt64} {stack : Option UInt64} {result : Int32}
    (placed : Placed layout boot)
    (fits : Fits layout boot sys (.create name entry arg stack)) (enough : maxThreads ≤ fuel)
    (ran : threadCreate layout fuel name entry arg stack sys = some (result, after)) :
    Kept layout boot after (record origins sys after (.create name entry arg stack)) ∧ after.current = sys.current := by
  obtain ⟨queue, sound⟩ := kept.sound
  obtain ⟨_, same, again, outcome⟩ := @threadCreate_cases layout fuel sys queue name entry arg stack sound enough
  rw [ran] at again
  obtain ⟨rfl, rfl⟩ := Prod.mk.inj (Option.some.inj again)
  rcases outcome with ⟨rfl, _⟩ | ⟨index, base, rfl, free, outcome⟩
  · refine ⟨kept.congr fun t ready => if_neg fun new => ?_, rfl⟩
    exact new.2 new.1
  obtain ⟨small, _, fromCells, _⟩ := fits base rfl
  have framed := buildThread_framed name entry arg sys small (fromCells (.slot index))
  have build := @buildThread_built layout name entry arg base (.slot index) sys
  generalize (buildThread layout name entry arg base (.slot index) sys).2 = built at outcome framed build
  rcases outcome with ⟨rfl, _, now⟩ | ⟨relinked, now⟩
  · refine ⟨kept.extend placed fits free framed ⟨queue, now⟩ rfl (fun u differ => ?_) fun live => ?_, build.current⟩
    · rw [modify_other _ _ differ, build.others u differ]
      exact ⟨rfl, rfl⟩
    · rw [modify_same] at live
      exact absurd rfl live
  · have based : ∀ u, (after.threads u).stackBase = (built.threads u).stackBase := by
      intro u
      have bare := congrArg Thread.stackBase (relinked.bare u)
      exact bare
    refine ⟨kept.extend placed fits free framed ⟨_, now⟩ relinked.cpu (fun u differ => ?_) fun live => ?_,
      relinked.current.trans build.current⟩
    · rw [relinked.state, based, build.others u differ]
      exact ⟨rfl, rfl⟩
    · rw [based, framed.stack]

omit kept in
theorem kill_base (sys : System) (t u : Ref) :
    ((sys.modify t fun thread => { thread with state := .dead }).threads u).stackBase = (sys.threads u).stackBase := by
  by_cases here : u = t
  · rw [here, modify_same]
  · rw [modify_other _ _ here]

omit kept in
theorem Calls.kill {t : Ref} {dummy : UInt64} (calls : Calls boot sys dummy) :
    Calls boot (sys.modify t fun thread => { thread with state := .dead }) dummy := by
  have own : ownStack (sys.modify t fun thread => { thread with state := .dead }) boot = ownStack sys boot := by
    unfold ownStack stackOf
    simp only [kill_base]
    rfl
  exact ⟨own ▸ calls.low, own ▸ calls.high, calls.dummy⟩

theorem Kept.kill {t : Ref} (is : sys.current = some t) :
    Kept layout boot (sys.modify t fun thread => { thread with state := .dead }) origins := by
  obtain ⟨queue, sound⟩ := kept.sound
  have base := kill_base sys t
  refine ⟨⟨queue, sound.kill is⟩, kept.separate.same (fun u owned => ?_) base, fun u ready => ?_⟩
  · by_cases here : u = t
    · exact here ▸ sound.owns_current is (here ▸ owned.1)
    · refine ⟨owned.1, fun unused => owned.2 ?_⟩
      rw [modify_other _ _ here, unused]
  · have differ : u ≠ t := by
      rintro rfl
      rw [modify_same] at ready
      cases ready
    rw [modify_other _ _ differ] at ready
    obtain ⟨origin, known, suspended⟩ := kept.saved u ready
    exact ⟨origin, known, suspended.agree (base u) (fun _ _ _ => rfl) fun _ _ _ => rfl⟩

end

def Arrives (layout : Layout) (sys after : System) (origins : Ref → Option Origin) : Prop :=
  after.current ≠ sys.current →
    ∃ t origin, after.current = some t ∧ origins t = some origin ∧ Resumes layout after t origin

theorem Kept.timer {dummy : UInt64} (kept : Kept layout boot sys origins) (placed : Placed layout boot)
    (calls : Calls boot sys dummy) (enough : maxThreads ≤ fuel)
    (ran : schedOnTimer layout fuel back dummy sys = some after) :
    Kept layout boot after (record origins sys after (.yield back dummy)) ∧ Arrives layout sys after origins := by
  obtain ⟨queue, sound⟩ := kept.sound
  have stays : after = sys → Kept layout boot after (record origins sys after (.yield back dummy)) ∧
      Arrives layout sys after origins := by
    rintro rfl
    exact ⟨kept.congr fun t _ => congrFun (if_pos rfl) t, fun differ => absurd rfl differ⟩
  cases started : sys.schedStarted with
  | false =>
    rw [schedOnTimer_stays sound (.inl started)] at ran
    exact stays (Option.some.inj ran).symm
  | true =>
    cases queue with
    | nil =>
      rw [schedOnTimer_stays sound (.inr rfl)] at ran
      exact stays (Option.some.inj ran).symm
    | cons t rest =>
      obtain ⟨middle, called, handed, next⟩ := schedOnTimer_hands layout back dummy sound started enough
      rw [called] at ran
      have is := (Option.some.inj ran).symm
      obtain ⟨⟨origin, known, resumes⟩, later⟩ :=
        Kept.switch placed kept.separate sound kept.saved calls handed next is
      have current : after.current = some t := by
        rw [is]
        exact handed.current
      have moved : after.current ≠ sys.current := by
        rw [current]
        exact (sound.waiting ((sound.ready t).mpr List.mem_cons_self)).symm
      exact ⟨later.congr fun u _ => congrFun (if_neg moved) u, fun _ => ⟨t, origin, current, known, resumes⟩⟩

theorem Kept.start {discard : UInt64} (kept : Kept layout boot sys origins) (placed : Placed layout boot)
    (calls : Calls boot sys discard) (waiting : sys.schedStarted = false) :
    Kept layout boot (schedStart layout back discard sys) origins ∧
      Arrives layout sys (schedStart layout back discard sys) origins := by
  obtain ⟨queue, sound⟩ := kept.sound
  have current : sys.current = some .idle := sound.waits waiting
  have begun : Sound { sys with schedStarted := true } queue :=
    ⟨⟨sound.queued.links, sound.queued.loose⟩, sound.ready, sound.running, sound.turn, sound.idle, Bool.noConfusion⟩
  have separate : Separate layout boot { sys with schedStarted := true } := kept.separate.same (fun _ => id) fun _ => rfl
  have nobody : returning { sys with schedStarted := true } = [] := by
    unfold returning
    rw [current]
    exact if_neg fun no => no.1 rfl
  have saved : ∀ t, (sys.threads t).state = .ready → ∃ origin, origins t = some origin ∧
      Suspended layout { sys with schedStarted := true } t origin := by
    intro t ready
    obtain ⟨origin, known, suspended⟩ := kept.saved t ready
    exact ⟨origin, known, suspended.agree rfl (fun _ _ _ => rfl) fun _ _ _ => rfl⟩
  rcases schedStart_cases layout back discard sound waiting with ⟨rfl, is⟩ | ⟨t, rest, middle, rfl, is, handed, next⟩
  · rw [is]
    exact ⟨⟨⟨[], begun⟩, separate, saved⟩, fun differ => absurd rfl differ⟩
  · have called : schedStart layout back discard sys = switchTo layout back
        (savesTo layout ({ sys with schedStarted := true } : System).current discard) t middle := by
      rw [is, current]
      rfl
    obtain ⟨⟨origin, known, resumes⟩, later⟩ := Kept.switch placed separate begun saved
      ⟨calls.low, calls.high, calls.dummy⟩ handed (by rw [nobody, List.append_nil]; exact next) called
    have now : (schedStart layout back discard sys).current = some t := by
      rw [is]
      exact handed.current
    refine ⟨later.congr fun u ready => ?_, fun _ => ⟨t, origin, now, known, resumes⟩⟩
    obtain ⟨_, after⟩ := later.sound
    refine (if_neg fun same => ?_).symm
    have idle := Option.some.inj (current.symm.trans same)
    rw [← idle] at ready
    exact after.idle ready

def Traced (layout : Layout) (fuel : Nat) (boot : Span) (before : System × (Ref → Option Origin)) (event : Event)
    (after : System × (Ref → Option Origin)) : Prop :=
  Step layout fuel before.1 event after.1 ∧ Fits layout boot before.1 event ∧
    after.2 = record before.2 before.1 after.1 event

theorem Traced.kept {event : Event} {before later : System × (Ref → Option Origin)} (placed : Placed layout boot)
    (enough : maxThreads ≤ fuel) (kept : Kept layout boot before.1 before.2)
    (step : Traced layout fuel boot before event later) :
    Kept layout boot later.1 later.2 ∧ Arrives layout before.1 later.1 before.2 := by
  obtain ⟨sys, origins⟩ := before
  obtain ⟨after, recorded⟩ := later
  obtain ⟨ran, fits, is⟩ := step
  dsimp only at kept ran fits is ⊢
  subst is
  unfold Step at ran
  cases event with
  | work cpu =>
    cases ran
    exact ⟨kept.work fits, fun differ => absurd rfl differ⟩
  | create name entry arg stack =>
    obtain ⟨⟨result, made⟩, created, rfl⟩ := Option.map_eq_some_iff.mp ran
    obtain ⟨later, current⟩ := kept.create placed fits enough created
    exact ⟨later, fun differ => absurd current differ⟩
  | start back discard =>
    have started : (if sys.schedStarted then none else some (schedStart layout back discard sys)) = some after := ran
    split at started
    next => cases started
    next waiting =>
      cases started
      exact kept.start placed fits (Bool.eq_false_iff.mpr waiting)
  | yield back dummy => exact kept.timer placed fits enough ran
  | exit back dummy =>
    cases current : sys.current with
    | none =>
      have called : schedOnTimer layout fuel back dummy sys = some after := by
        rw [← ran, Event.run, threadExit, current]
      exact kept.timer placed fits enough called
    | some t =>
      have called : schedOnTimer layout fuel back dummy (sys.modify t fun thread => { thread with state := .dead }) =
          some after := by
        rw [← ran, Event.run, threadExit, current]
      exact (kept.kill current).timer placed (Calls.kill fits) enough called

theorem schedInit_owns (layout : Layout) (sys : System) (t : Ref) : ¬Owns (schedInit layout sys) t := by
  rintro ⟨slot, used⟩
  cases t with
  | idle => exact slot rfl
  | slot index => exact used rfl

theorem schedInit_kept (zero : sys.threads = fun _ => Thread.zero) (layout : Layout) (boot : Span) :
    Kept layout boot (schedInit layout sys) fun _ => none := by
  have sound : Sound (schedInit layout sys) [] := schedInit_sound zero
  have nothing := schedInit_owns layout sys
  refine ⟨⟨[], sound⟩, ⟨fun t owned => ?_, fun t owned => ?_, fun t owned => ?_, fun t _ owned => ?_⟩,
    fun t ready => absurd (sound.owns_ready ready) (nothing t)⟩
  all_goals exact absurd owned (nothing t)

/-- In every run in which each thread keeps to its own stack, a switch arrives at a thread that
goes on where it was: after its last call of `context_switch`, with the registers that calls
preserve and its stack, or, if it has never run, in `thread_trampoline`, which calls its entry. -/
theorem switch_resumes_thread {layout : Layout} {fuel : Nat} {boot : Span} {start : System} {events : List Event}
    {event : Event} {before after : System × (Ref → Option Origin)} (zero : start.threads = fun _ => Thread.zero)
    (enough : maxThreads ≤ fuel) (placed : Placed layout boot)
    (run : Run (Traced layout fuel boot) (schedInit layout start, fun _ => none) events before)
    (step : Traced layout fuel boot before event after) (switched : after.1.current ≠ before.1.current) :
    ∃ t origin, after.1.current = some t ∧ before.2 t = some origin ∧ Resumes layout after.1 t origin := by
  have kept := @Run.preserves _ _ _ (fun state => Kept layout boot state.1 state.2)
    (fun _ _ _ kept step => (Traced.kept placed enough kept step).1) _ _ _ run (schedInit_kept zero layout boot)
  exact (Traced.kept placed enough kept step).2 switched

def booted : System := { blank with cpu := blank.cpu.set .rsp 0x1800 }

theorem places_apart : Placed places ⟨0x1000, 0x1000⟩ ∧ ∀ u, (⟨0x10000, 8192⟩ : Span).Apart (cellOf places u) := by
  have cell : ∀ index, (places.rspCell (.slot index)).toNat = 0xA000 + 8 * index.val := by decide +kernel
  have idle : (places.rspCell .idle).toNat = 0x9000 := rfl
  refine ⟨⟨fun t u differ => ?_, fun t => ?_⟩, fun u => ?_⟩
  · cases t with
    | idle =>
      cases u with
      | idle => exact absurd rfl differ
      | slot index =>
        simp only [Span.Apart, cellOf, idle, cell]
        omega
    | slot index =>
      cases u with
      | idle =>
        simp only [Span.Apart, cellOf, idle, cell]
        omega
      | slot other =>
        have apart : index.val ≠ other.val := fun same => differ (congrArg Ref.slot (Fin.ext same))
        simp only [Span.Apart, cellOf, cell]
        omega
  · cases t with
    | idle => exact .inl (by decide)
    | slot index =>
      simp only [Span.Apart, cellOf, cell]
      omega
  · have few : ∀ index : Fin maxThreads, index.val < 16 := fun index => index.isLt
    cases u with
    | idle => exact .inr (by decide)
    | slot index =>
      have small := few index
      simp only [Span.Apart, cellOf, cell]
      omega

theorem switch_resumes_first_thread : ∃ before after : System × (Ref → Option Origin),
    Run (Traced places 16 ⟨0x1000, 0x1000⟩) (schedInit places booted, fun _ => none)
      [.create none 1 2 (some 0x10000)] before ∧
    Traced places 16 ⟨0x1000, 0x1000⟩ before (.start 0 0x1900) after ∧
    ∃ t origin, after.1.current = some t ∧ before.2 t = some origin ∧ Resumes places after.1 t origin := by
  have facts : ((Event.create none 1 2 (some 0x10000)).run places 16 (schedInit places booted)).map (fun sys =>
      (sys.current, sys.cpu.sp, sys.schedStarted, (schedStart places 0 0x1900 sys).current)) =
      some (some .idle, 0x1800, false, some (.slot ⟨0, by decide⟩)) := by
    decide +kernel
  obtain ⟨sys, created, values⟩ := Option.map_eq_some_iff.mp facts
  simp only [Prod.mk.injEq] at values
  obtain ⟨current, sp, waiting, next⟩ := values
  have own : ownStack sys ⟨0x1000, 0x1000⟩ = ⟨0x1000, 0x1000⟩ := by
    unfold ownStack
    rw [current]
  have calls : Calls ⟨0x1000, 0x1000⟩ sys 0x1900 := by
    refine ⟨?_, ?_, fun _ => ?_⟩
    · rw [own, sp]
      decide
    · rw [own, sp]
      decide
    · rw [sp]
      decide
  have fits : Fits places ⟨0x1000, 0x1000⟩ (schedInit places booted) (.create none 1 2 (some 0x10000)) := by
    rintro base ⟨⟩
    exact ⟨by decide, by decide, places_apart.2, fun u owned => absurd owned (schedInit_owns places booted u)⟩
  have first : Traced places 16 ⟨0x1000, 0x1000⟩ (schedInit places booted, fun _ => none)
      (.create none 1 2 (some 0x10000))
      (sys, record (fun _ => none) (schedInit places booted) sys (.create none 1 2 (some 0x10000))) :=
    ⟨created, fits, rfl⟩
  have started : Step places 16 sys (.start 0 0x1900) (schedStart places 0 0x1900 sys) := by
    rw [Step, Event.run, waiting]
    rfl
  have step : Traced places 16 ⟨0x1000, 0x1000⟩
      (sys, record (fun _ => none) (schedInit places booted) sys (.create none 1 2 (some 0x10000))) (.start 0 0x1900)
      (schedStart places 0 0x1900 sys, _) := ⟨started, calls, rfl⟩
  refine ⟨_, _, .next first (.done _), step,
    switch_resumes_thread rfl (Nat.le_refl 16) places_apart.1 (.next first (.done _)) step ?_⟩
  rw [next, current]
  simp

end GWKernel.Sched
